import Mathlib.Data.List.FinRange
import Thunderbolt.Concurrent.System
import Thunderbolt.Executor.AbpDeque
import Thunderbolt.Executor.GlobalQueue
import Thunderbolt.Scheduler.Parking

/-! `ThunderboltRuntime` in its stealing modes.

A worker takes from its own five deques, then from the global queue (moving a
batch into its deques while it is there), then from the deques of the others;
it parks when it found nothing often enough. Tasks submitted by a worker go to
its own deque, or to the global queue when that is full or the submitter is not
a worker. Every atomic step of the deques, of the global queue and of the parking
protocol is a step here. A task that waits runs others: those nest inside
`executing`, which does not count them. -/
namespace Thunderbolt.Scheduler.Stealing
open Concurrent Executor

def kSpinsBeforePark : ℕ := 64

def kGlobalDrainBatch : ℕ := 32

def kAgingInterval : ℕ := 8

/-- `SchedulerMode`, less `Static`. -/
inductive SchedulerMode where
  | WorkStealing | PriorityAging
  deriving DecidableEq

structure RuntimeConfig where
  scheduler : SchedulerMode
  /-- `kOptSkipEmptyDeques` is on. -/
  skipEmptyDeques : Bool
  /-- Each deque has `2 ^ capacityBits` slots. -/
  capacityBits : ℕ

/-- This pop scans from the lowest priority. -/
def aging_pop_favours_lowest (mode : SchedulerMode) (pop_index : ℕ) : Bool :=
  mode == .PriorityAging && pop_index % kAgingInterval == kAgingInterval - 1

/-- Who called `acquire_next`: the worker loop, after `spins` misses, or a wait
inside a task. -/
inductive Caller where
  | loop (spins : ℕ)
  | wait

/-- A worker's deque for one priority. -/
abbrev DequeId (n : ℕ) := Fin n × TaskPriority

/-- Where a worker stands, while it is not inside `park_worker`. -/
inductive Work (n : ℕ) where
  /-- About to read `running_`, after `spins` misses. -/
  | looking (spins : ℕ)
  /-- At the head of `acquire_next`. -/
  | acquiring (c : Caller)
  /-- An aging turn: inside `global_.pop(true)`. -/
  | aging (c : Caller)
  /-- `pop_local`: these priorities are left to look at. -/
  | scanning (c : Caller) (rest : List TaskPriority)
  /-- `empty_hint` has read `bottom_`. -/
  | probing (c : Caller) (p : TaskPriority) (bottom : ℤ) (rest : List TaskPriority)
  /-- Inside `pop` on its own deque. -/
  | popping (c : Caller) (p : TaskPriority) (rest : List TaskPriority)
  /-- `drain_global`: inside the first pop. -/
  | draining (c : Caller)
  /-- At the head of the batch loop. -/
  | batching (i : ℕ)
  /-- Inside `pop_with_priority`. -/
  | pulling (i : ℕ)
  /-- Inside `push` on its own deque, with the task pulled. -/
  | stocking (i : ℕ) (h : TaskHandle) (p : TaskPriority)
  /-- The deque is full: putting the task back. -/
  | restocking
  /-- `steal_from_others`: at the first of these deques. -/
  | stealing (c : Caller) (victims : List (DequeId n))
  | executing
  /-- `enqueue_ready`: inside `push` on its own deque. -/
  | enqueueing (h : TaskHandle) (p : TaskPriority)
  /-- `enqueue_ready`: inside `push` on the global queue. -/
  | overflowing
  | exited

/-- `any_work_available`: which of its reads is next. -/
inductive Look (n : ℕ) where
  | global
  /-- These deques are left to look at. -/
  | deques (rest : List (DequeId n))
  /-- Has read `bottom_` of the deque `x`. -/
  | top (x : DequeId n) (bottom : ℤ) (rest : List (DequeId n))

structure State (n : ℕ) (External : Type) where
  park : Parking.State (Fin n) (Fin n ⊕ External) (Look n)
  deques : DequeId n → AbpDeque.State (Fin n) TaskHandle
  global : GlobalQueue.State (Fin n ⊕ External)
  work : Fin n → Work n
  pop_index : Fin n → ℕ

def allDeques (n : ℕ) : List (DequeId n) := (List.finRange n).product (scan false)

variable {n : ℕ} {External : Type}

/-- The reads of `any_work_available`, one at a time. -/
def look (s : State n External) : Look n → Parking.Verdict (Look n)
  | .global => if s.global.count > 0 then .work else .next (.deques (allDeques n))
  | .deques [] => .nothing
  | .deques (x :: rest) => .next (.top x (s.deques x).bottom rest)
  | .top x bottom rest => if bottom - (s.deques x).top > 0 then .work else .next (.deques rest)

/-- The deques a thief goes through, from the worker `start` on and less its own;
with one worker there are none. -/
def victims (w start : Fin n) : List (DequeId n) :=
  (((List.finRange n).map (start + ·)).filter (· ≠ w)).product (scan false)

inductive Act (n : ℕ) (External : Type) where
  | work (w : Fin n)
  | submit (e : External)
  | global (t : Fin n ⊕ External)
  | park (a : Parking.Act (Fin n) (Fin n ⊕ External))

/-- The own deque an operation of this worker is in progress on. -/
def Work.busy : Work n → Option TaskPriority
  | popping _ p _ | stocking _ _ p | enqueueing _ p => some p
  | _ => none

/-- The task this worker is pushing on its own deque. -/
def Work.pushes : Work n → Option (TaskHandle × TaskPriority)
  | stocking _ h p | enqueueing h p => some (h, p)
  | _ => none

variable [DecidableEq External]

namespace State

def workAt (s : State n External) (w : Fin n) (p : Work n) : State n External :=
  {s with work := Function.update s.work w p}

def dequeAt (s : State n External) (x : DequeId n) (d : AbpDeque.State (Fin n) TaskHandle) :
    State n External :=
  {s with deques := Function.update s.deques x d}

/-- A call on the global queue, or the return from one. -/
def globalAt (s : State n External) (t : Fin n ⊕ External) (p : GlobalQueue.Pc) :
    State n External :=
  {s with global := s.global.pcAt t p}

def parkAt (s : State n External) (p : Parking.State (Fin n) (Fin n ⊕ External) (Look n)) :
    State n External :=
  {s with park := p}

/-- `++worker.pop_index`. -/
def popped (s : State n External) (w : Fin n) : State n External :=
  {s with pop_index := Function.update s.pop_index w (s.pop_index w + 1)}

def lowestFirst (cfg : RuntimeConfig) (s : State n External) (w : Fin n) : Bool :=
  aging_pop_favours_lowest cfg.scheduler (s.pop_index w)

end State

/-- The operation in progress is a pop. -/
def InPop {α : Type} : AbpDeque.OwnerPc α → Prop
  | .popStore _ | .popTop _ | .popEmpty _ | .popRead _ _ | .popCas _ _ _ | .popRestore _ _ _ => True
  | _ => False

/-- The operation in progress is a push of `v`. -/
def InPush {α : Type} (v : α) : AbpDeque.OwnerPc α → Prop
  | .pushTop u _ | .pushWrite u _ | .pushPublish u _ => u = v
  | _ => False

inductive Step (cfg : RuntimeConfig) : Act n External → State n External → State n External → Prop where
  | stop {s w spins} : s.work w = .looking spins → s.park.sleeper w = .awake →
      s.park.running = false → Step cfg (.work w) s (s.workAt w .exited)
  | loop {s w spins} : s.work w = .looking spins → s.park.sleeper w = .awake →
      s.park.running = true → Step cfg (.work w) s (s.workAt w (.acquiring (.loop spins)))
  /-- An aging turn looks at the global queue first. -/
  | age {s w c} : s.work w = .acquiring c → s.lowestFirst cfg w = true →
      Step cfg (.work w) s ((s.workAt w (.aging c)).globalAt (.inl w) (.reading true))
  | strict {s w c} : s.work w = .acquiring c → s.lowestFirst cfg w = false →
      Step cfg (.work w) s (s.workAt w (.scanning c (scan false)))
  | aged {s w c x} : s.work w = .aging c → s.global.pc (.inl w) = .popped (some x) →
      Step cfg (.work w) s (((s.workAt w .executing).globalAt (.inl w) .idle).popped w)
  | ageMiss {s w c} : s.work w = .aging c → s.global.pc (.inl w) = .popped none →
      Step cfg (.work w) s
        ((s.workAt w (.scanning c (scan (s.lowestFirst cfg w)))).globalAt (.inl w) .idle)
  -- `pop_local`
  | probe {s w c p rest} : s.work w = .scanning c (p :: rest) → cfg.skipEmptyDeques = true →
      Step cfg (.work w) s (s.workAt w (.probing c p (s.deques (w, p)).bottom rest))
  | probeEmpty {s w c p b rest} : s.work w = .probing c p b rest → ¬b - (s.deques (w, p)).top > 0 →
      Step cfg (.work w) s (s.workAt w (.scanning c rest))
  | probeSome {s w c p b rest} : s.work w = .probing c p b rest → b - (s.deques (w, p)).top > 0 →
      Step cfg (.work w) s (s.workAt w (.popping c p rest))
  | unprobed {s w c p rest} : s.work w = .scanning c (p :: rest) → cfg.skipEmptyDeques = false →
      Step cfg (.work w) s (s.workAt w (.popping c p rest))
  | pop {s w c p rest d} : s.work w = .popping c p rest →
      AbpDeque.Step cfg.capacityBits .owner (s.deques (w, p)) d → InPop d.owner →
      Step cfg (.work w) s (s.dequeAt (w, p) d)
  | popTook {s w c p rest d r} : s.work w = .popping c p rest →
      AbpDeque.Step cfg.capacityBits .owner (s.deques (w, p)) d → d.owner = .idle →
      d.returned = (s.deques (w, p)).returned ++ [r] →
      Step cfg (.work w) s (((s.workAt w .executing).dequeAt (w, p) d).popped w)
  | popMiss {s w c p rest d} : s.work w = .popping c p rest →
      AbpDeque.Step cfg.capacityBits .owner (s.deques (w, p)) d → d.owner = .idle →
      d.returned = (s.deques (w, p)).returned →
      Step cfg (.work w) s ((s.workAt w (.scanning c rest)).dequeAt (w, p) d)
  -- `drain_global`
  | drain {s w c} : s.work w = .scanning c [] →
      Step cfg (.work w) s
        ((s.workAt w (.draining c)).globalAt (.inl w) (.reading (s.lowestFirst cfg w)))
  | drainMiss {s w c} (start : Fin n) : s.work w = .draining c →
      s.global.pc (.inl w) = .popped none →
      Step cfg (.work w) s
        ((s.workAt w (.stealing c (victims w start))).globalAt (.inl w) .idle)
  | drained {s w c x} : s.work w = .draining c → s.global.pc (.inl w) = .popped (some x) →
      Step cfg (.work w) s (((s.workAt w (.batching 1)).globalAt (.inl w) .idle).popped w)
  | pull {s w i} : s.work w = .batching i → i < kGlobalDrainBatch →
      Step cfg (.work w) s ((s.workAt w (.pulling i)).globalAt (.inl w) (.reading false))
  | batched {s w i} : s.work w = .batching i → ¬i < kGlobalDrainBatch →
      Step cfg (.work w) s (s.workAt w .executing)
  | pullMiss {s w i} : s.work w = .pulling i → s.global.pc (.inl w) = .popped none →
      Step cfg (.work w) s ((s.workAt w .executing).globalAt (.inl w) .idle)
  | pulled {s w i h p} : s.work w = .pulling i → s.global.pc (.inl w) = .popped (some (h, p)) →
      Step cfg (.work w) s ((s.workAt w (.stocking i h p)).globalAt (.inl w) .idle)
  /-- Inside a push on its own deque. -/
  | push {s w h p d} : (s.work w).pushes = some (h, p) →
      AbpDeque.Step cfg.capacityBits .owner (s.deques (w, p)) d → InPush h d.owner →
      Step cfg (.work w) s (s.dequeAt (w, p) d)
  | stocked {s w i h p d x} : s.work w = .stocking i h p →
      AbpDeque.Step cfg.capacityBits .owner (s.deques (w, p)) d → d.owner = .idle →
      d.pushed = (s.deques (w, p)).pushed ++ [x] →
      Step cfg (.work w) s ((s.workAt w (.batching (i + 1))).dequeAt (w, p) d)
  | stockFull {s w i h p d} : s.work w = .stocking i h p →
      AbpDeque.Step cfg.capacityBits .owner (s.deques (w, p)) d → d.owner = .idle →
      d.pushed = (s.deques (w, p)).pushed →
      Step cfg (.work w) s
        (((s.workAt w .restocking).dequeAt (w, p) d).globalAt (.inl w) (.pushing h p))
  | restocked {s w} : s.work w = .restocking → s.global.pc (.inl w) = .pushed →
      Step cfg (.work w) s ((s.workAt w .executing).globalAt (.inl w) .idle)
  -- `steal_from_others`
  | steal {s w c x rest d} : s.work w = .stealing c (x :: rest) →
      AbpDeque.Step cfg.capacityBits (.thief w) (s.deques x) d → d.thief w ≠ .idle →
      Step cfg (.work w) s (s.dequeAt x d)
  | stole {s w c x rest d r} : s.work w = .stealing c (x :: rest) →
      AbpDeque.Step cfg.capacityBits (.thief w) (s.deques x) d → d.thief w = .idle →
      d.returned = (s.deques x).returned ++ [r] →
      Step cfg (.work w) s ((s.workAt w .executing).dequeAt x d)
  /-- Empty, or lost the race: on to the next. -/
  | stealMiss {s w c x rest d} : s.work w = .stealing c (x :: rest) →
      AbpDeque.Step cfg.capacityBits (.thief w) (s.deques x) d → d.thief w = .idle →
      d.returned = (s.deques x).returned →
      Step cfg (.work w) s ((s.workAt w (.stealing c rest)).dequeAt x d)
  -- Nothing anywhere.
  | spin {s w spins} : s.work w = .stealing (.loop spins) [] → spins + 1 < kSpinsBeforePark →
      Step cfg (.work w) s (s.workAt w (.looking (spins + 1)))
  | park {s w spins p} : s.work w = .stealing (.loop spins) [] → ¬spins + 1 < kSpinsBeforePark →
      Parking.Step (look s) .global (.park w) s.park p →
      Step cfg (.work w) s ((s.workAt w (.looking 0)).parkAt p)
  | unhelped {s w} : s.work w = .stealing .wait [] →
      Step cfg (.work w) s (s.workAt w .executing)
  /-- `wait` inside a task. -/
  | help {s w} : s.work w = .executing → s.park.waker (.inl w) = .idle →
      Step cfg (.work w) s (s.workAt w (.acquiring .wait))
  | finish {s w} : s.work w = .executing → s.park.waker (.inl w) = .idle →
      Step cfg (.work w) s (s.workAt w (.looking 0))
  -- `enqueue_ready`
  | enqueue {s w} (h : TaskHandle) (p : TaskPriority) : s.work w = .executing →
      s.park.waker (.inl w) = .idle → Step cfg (.work w) s (s.workAt w (.enqueueing h p))
  | queued {s w h p d x q} : s.work w = .enqueueing h p →
      AbpDeque.Step cfg.capacityBits .owner (s.deques (w, p)) d → d.owner = .idle →
      d.pushed = (s.deques (w, p)).pushed ++ [x] →
      Parking.Step (look s) .global (.wake (.inl w)) s.park q →
      Step cfg (.work w) s (((s.workAt w .executing).dequeAt (w, p) d).parkAt q)
  | overflow {s w h p d} : s.work w = .enqueueing h p →
      AbpDeque.Step cfg.capacityBits .owner (s.deques (w, p)) d → d.owner = .idle →
      d.pushed = (s.deques (w, p)).pushed →
      Step cfg (.work w) s
        (((s.workAt w .overflowing).dequeAt (w, p) d).globalAt (.inl w) (.pushing h p))
  | overflowed {s w q} : s.work w = .overflowing → s.global.pc (.inl w) = .pushed →
      Parking.Step (look s) .global (.wake (.inl w)) s.park q →
      Step cfg (.work w) s (((s.workAt w .executing).globalAt (.inl w) .idle).parkAt q)
  | submit {s e} (h : TaskHandle) (p : TaskPriority) : s.global.pc (.inr e) = .idle →
      s.park.waker (.inr e) = .idle →
      Step cfg (.submit e) s (s.globalAt (.inr e) (.pushing h p))
  | submitted {s e q} : s.global.pc (.inr e) = .pushed →
      Parking.Step (look s) .global (.wake (.inr e)) s.park q →
      Step cfg (.submit e) s ((s.globalAt (.inr e) .idle).parkAt q)
  /-- Inside an operation on the global queue. -/
  | global {s t g} : GlobalQueue.Step t s.global g → Step cfg (.global t) s {s with global := g}
  /-- Inside `park_worker`, inside `wake_one_worker`, and the destructor. -/
  | parking {s a q} : (∀ w, a ≠ .park w) → (∀ t, a ≠ .wake t) →
      Parking.Step (look s) .global a s.park q → Step cfg (.park a) s (s.parkAt q)

structure Initial (s : State n External) : Prop where
  park : s.park = Parking.initial
  deques : ∀ x, AbpDeque.Initial (s.deques x)
  global : s.global = GlobalQueue.initial
  work : ∀ w, s.work w = .looking 0

/-- The runtime with `m + 1` workers. -/
def system (cfg : RuntimeConfig) (m : ℕ) (External : Type) [DecidableEq External] :
    System (State (m + 1) External) (Act (m + 1) External) :=
  ⟨Initial, Step cfg⟩

end Thunderbolt.Scheduler.Stealing
