import Mathlib.Data.Fintype.Sigma
import Thunderbolt.Concurrent.Claims
import Thunderbolt.World.Systems

/-! A tick of the simulation.

The arrays of each kind of entity are cut into batches of `kBatchSize`, and a chain of
stages runs over each batch. `tick_serial` takes the batches in order. `tick` submits for
each chain some tasks that claim batches off a shared cursor, and an empty task behind
them whose handle it waits for: a claimant may run inline where it is submitted, when the
pool is exhausted, and the claimants that were submitted interleave as they like.

No array has so many elements that an index or a cursor would wrap: an element takes
at least twelve bytes for its position. -/
namespace Thunderbolt.World
open Concurrent

variable {Float : Type} [FloatOps Float] {v n a : ℕ}

def kBatchSize : ℕ := 32

def batch_count_for (count : ℕ) : ℕ := (count + kBatchSize - 1) / kBatchSize

inductive Chain where
  | vehicles
  | npcs
  | aircraft
  deriving DecidableEq

namespace Chain

/-- In the order of the submissions. -/
def all : List Chain := [vehicles, npcs, aircraft]

instance : Fintype Chain := .ofList all fun c => by cases c <;> decide

/-- How many entities the chain has, among so many vehicles, NPCs and aircraft. -/
def count (v n a : ℕ) : Chain → ℕ
  | vehicles => v
  | npcs => n
  | aircraft => a

end Chain

/-- A stage of a chain. -/
inductive Stage : Chain → Type where
  | vehicle_lod : Stage .vehicles
  | vehicle_physics : Stage .vehicles
  | npc_lod : Stage .npcs
  | npc_perception : Stage .npcs
  | npc_decision : Stage .npcs
  | npc_movement : Stage .npcs
  | aircraft_atmosphere : Stage .aircraft
  | aircraft_aerodynamics : Stage .aircraft
  | aircraft_propulsion : Stage .aircraft
  | aircraft_integrate : Stage .aircraft

/-- What the stage does with one entity. -/
def Stage.update (inp : WorldState Float v n a) : {c : Chain} → Stage c → Fin (c.count v n a) →
    WorldState Float v n a → WorldState Float v n a
  | _, vehicle_lod, i, out => update_vehicle_lod inp out i
  | _, vehicle_physics, i, out => update_vehicle_physics inp out i
  | _, npc_lod, i, out => update_npc_lod inp out i
  | _, npc_perception, i, out => update_npc_perception inp out i
  | _, npc_decision, i, out => update_npc_decision inp out i
  | _, npc_movement, i, out => update_npc_movement inp out i
  | _, aircraft_atmosphere, i, out => update_aircraft_atmosphere inp out i
  | _, aircraft_aerodynamics, i, out => update_aircraft_aerodynamics inp out i
  | _, aircraft_propulsion, i, out => update_aircraft_propulsion inp out i
  | _, aircraft_integrate, i, out => update_aircraft_integrate inp out i

/-- The indices from `first` up to `last`, in order; `last` is at most `count` wherever the stages are run. -/
def indices (count first last : ℕ) : List (Fin count) :=
  (List.finRange count).filter fun i => first ≤ i.val ∧ i.val < last

/-- The stage function: its body for each entity of the range. -/
def Stage.range (inp : WorldState Float v n a) {c : Chain} (stage : Stage c) (first last : ℕ)
    (out : WorldState Float v n a) : WorldState Float v n a :=
  (indices (c.count v n a) first last).foldl (fun out i => stage.update inp i out) out

def Chain.stages : (c : Chain) → List (Stage c)
  | vehicles => [.vehicle_lod, .vehicle_physics]
  | npcs => [.npc_lod, .npc_perception, .npc_decision, .npc_movement]
  | aircraft =>
    [.aircraft_atmosphere, .aircraft_aerodynamics, .aircraft_propulsion, .aircraft_integrate]

/-- The fused chain: each stage over the range, one after the other. -/
def Chain.update (c : Chain) (inp : WorldState Float v n a) (first last : ℕ)
    (out : WorldState Float v n a) : WorldState Float v n a :=
  c.stages.foldl (fun out stage => stage.range inp first last out) out

def update_vehicle_chain (inp : WorldState Float v n a) (b e : ℕ) (out : WorldState Float v n a) :
    WorldState Float v n a :=
  Chain.vehicles.update inp b e out

def update_npc_chain (inp : WorldState Float v n a) (b e : ℕ) (out : WorldState Float v n a) :
    WorldState Float v n a :=
  Chain.npcs.update inp b e out

def update_aircraft_chain (inp : WorldState Float v n a) (b e : ℕ) (out : WorldState Float v n a) :
    WorldState Float v n a :=
  Chain.aircraft.update inp b e out

/-! ### The serial tick -/

set_option linter.dupNamespace false

/-- The two buffers, and how often they were swapped. -/
structure World (Float : Type) (v n a : ℕ) where
  current : WorldState Float v n a
  next : WorldState Float v n a
  tick : BitVec 64

namespace World

/-- The buffer a tick writes, when its systems start. -/
def out (w : World Float v n a) : WorldState Float v n a :=
  {w.next with player_position := w.current.player_position}

/-- `swap_buffers` and `advance_tick`, when `next` has become `out`. -/
def finish_tick (w : World Float v n a) (out : WorldState Float v n a) : World Float v n a where
  current := out
  next := w.current
  tick := w.tick + 1

end World

/-- The range of batch `b`. -/
def batch_end (count b : ℕ) : ℕ :=
  if b * kBatchSize + kBatchSize < count then b * kBatchSize + kBatchSize else count

def run_batched (count : ℕ) (body : ℕ → ℕ → WorldState Float v n a → WorldState Float v n a)
    (out : WorldState Float v n a) : WorldState Float v n a :=
  (List.range (batch_count_for count)).foldl
    (fun out b => body (b * kBatchSize) (batch_end count b) out) out

def tick_serial (w : World Float v n a) : World Float v n a :=
  let out := w.out
  let out := run_batched v (update_vehicle_chain w.current) out
  let out := run_batched n (update_npc_chain w.current) out
  let out := run_batched a (update_aircraft_chain w.current) out
  w.finish_tick out

/-- The stages with a barrier behind each: every stage over all entities before the next. -/
def tick_unfused (w : World Float v n a) : World Float v n a :=
  let out := w.out
  let out := Chain.all.foldl (fun out c =>
    c.stages.foldl (fun out stage => stage.range w.current 0 (c.count v n a) out) out) out
  w.finish_tick out

/-! ### The claimants -/

/-- One stage's work on one entity. -/
structure Op (v n a : ℕ) where
  chain : Chain
  stage : Stage chain
  entity : Fin (chain.count v n a)

def Op.act (inp : WorldState Float v n a) (o : Op v n a) (out : WorldState Float v n a) :
    WorldState Float v n a :=
  o.stage.update inp o.entity out

/-- The work of the fused chain on a range. -/
def Chain.ops (v n a : ℕ) (c : Chain) (first last : ℕ) : List (Op v n a) :=
  c.stages.flatMap fun stage => (indices (c.count v n a) first last).map fun i => ⟨c, stage, i⟩

/-- How many tasks claim the batches of a chain. -/
def claimants (count worker_count : ℕ) : ℕ :=
  let batches := batch_count_for count
  let worker_cap := if worker_count = 0 then 1 else worker_count
  if batches < worker_cap then batches else worker_cap

/-- `claim_batches`, for each chain. -/
def claim_batches (inp : WorldState Float v n a) :
    Claims.Loops Chain ℕ (Op v n a) (WorldState Float v n a) where
  start _ := 0
  next _ b := b + 1
  stop c b := b ≥ batch_count_for (c.count v n a)
  ops c b := c.ops v n a (b * kBatchSize) (batch_end (c.count v n a) b)
  act := Op.act inp

/-! ### The tick -/

/-- The `k`-th claimant of a chain. -/
abbrev Claimant (v n a worker_count : ℕ) :=
  (c : Chain) × Fin (claimants (c.count v n a) worker_count)

section Tick
variable {worker_count : ℕ}

/-- What the tick submits. -/
inductive Submission (v n a worker_count : ℕ) where
  | claimant (t : Claimant v n a worker_count)
  /-- The empty task behind the claimants of this chain. -/
  | barrier (c : Chain)

/-- `submit_stage`, for a chain: nothing when it has no entities. -/
def submit_stage (v n a worker_count : ℕ) (c : Chain) : List (Submission v n a worker_count) :=
  if c.count v n a = 0 then []
  else (List.finRange (claimants (c.count v n a) worker_count)).map (fun k => .claimant ⟨c, k⟩) ++
    [.barrier c]

/-- Where the thread that called `tick` is. -/
inductive Main (v n a worker_count : ℕ) where
  | submitting (left : List (Submission v n a worker_count))
  /-- The pool is exhausted: it runs the claimant itself. -/
  | inline (t : Claimant v n a worker_count) (left : List (Submission v n a worker_count))
  /-- It waits for these gates; it returns when none is left. -/
  | waiting (left : List Chain)

/-- This claimant has been submitted. -/
def Main.Submitted (t : Claimant v n a worker_count) : Main v n a worker_count → Prop
  | submitting left => .claimant t ∉ left
  | inline u left => t = u ∨ .claimant t ∉ left
  | waiting _ => True

structure TickState (Float : Type) (v n a worker_count : ℕ) where
  claims : Claims.State Chain ℕ (Op v n a) (WorldState Float v n a) (Claimant v n a worker_count)
  main : Main v n a worker_count
  /-- The chain's gate is a valid handle. -/
  gate : Chain → Bool

namespace TickState

/-- The claimants of the chain have all ended. -/
def Ended (s : TickState Float v n a worker_count) (c : Chain) : Prop :=
  ∀ k, s.claims.pc ⟨c, k⟩ = .finished

/-- The tick has waited for its gates. -/
def Returned (s : TickState Float v n a worker_count) : Prop := s.main = .waiting []

/-- Who moves: the thread that called `tick`, or whichever runs this claimant. -/
inductive Step (inp : WorldState Float v n a) : Option (Claimant v n a worker_count) →
    TickState Float v n a worker_count → TickState Float v n a worker_count → Prop where
  | submit {s t left} : s.main = .submitting (.claimant t :: left) →
      Step inp none s {s with main := .submitting left}
  | inline {s t left} : s.main = .submitting (.claimant t :: left) →
      Step inp none s {s with main := .inline t left}
  | inlined {s t left} : s.main = .inline t left → s.claims.pc t = .finished →
      Step inp none s {s with main := .submitting left}
  | barrier {s c left} : s.main = .submitting (.barrier c :: left) →
      Step inp none s {s with main := .submitting left, gate := Function.update s.gate c true}
  /-- With the pool exhausted, `submit_after` waits for the claimants itself. -/
  | inlineBarrier {s c left} : s.main = .submitting (.barrier c :: left) → s.Ended c →
      Step inp none s {s with main := .submitting left}
  | submitted {s} : s.main = .submitting [] → Step inp none s {s with main := .waiting Chain.all}
  /-- An invalid handle is not waited for. -/
  | wait {s c left} : s.main = .waiting (c :: left) → (s.gate c = true → s.Ended c) →
      Step inp none s {s with main := .waiting left}
  | claimant {s t claims} : s.main.Submitted t →
      Claims.Step (claim_batches inp) Sigma.fst t s.claims claims →
      Step inp (some t) s {s with claims}

end TickState

def tick (w : World Float v n a) (worker_count : ℕ) :
    System (TickState Float v n a worker_count) (Option (Claimant v n a worker_count)) where
  initial s :=
    s = { claims := Claims.initial (claim_batches w.current) w.out
          main := .submitting (Chain.all.flatMap (submit_stage v n a worker_count))
          gate := fun _ => false }
  step := TickState.Step w.current

/-- A tick goes as it should: whatever has happened it can still return; and when it
returns, every batch of every chain has been claimed once and run to its end, and the world is
as after the serial tick, and as after the stages one by one. -/
structure Tick.Correct (w : World Float v n a) (worker_count : ℕ) : Prop where
  returns : ∀ s, Reachable (tick w worker_count) s →
    ∃ s', Reachable ((tick w worker_count).startingAt s) s' ∧ s'.Returned
  once : ∀ s, Reachable (tick w worker_count) s → s.Returned →
    (∀ c, s.claims.claims c = List.range (batch_count_for (c.count v n a))) ∧
      ∀ x ∈ s.claims.log, x.done = (claim_batches w.current).ops x.loop x.value
  serial : ∀ s, Reachable (tick w worker_count) s → s.Returned →
    w.finish_tick s.claims.mem = tick_serial w
  unfused : ∀ s, Reachable (tick w worker_count) s → s.Returned →
    w.finish_tick s.claims.mem = tick_unfused w
  /-- That world: the new frame is what the stages make of the old one, which it keeps beside it. -/
  frame : (tick_serial w).current = Chain.all.foldl (fun out c =>
      c.stages.foldl (fun out stage => stage.range w.current 0 (c.count v n a) out) out) w.out ∧
    (tick_serial w).next = w.current ∧ (tick_serial w).tick = w.tick + 1

end Tick

end Thunderbolt.World
