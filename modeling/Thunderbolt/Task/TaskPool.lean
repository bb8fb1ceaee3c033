import Mathlib.Data.Fintype.Sum
import Mathlib.Data.Multiset.Range
import Mathlib.Logic.Function.Basic
import Mathlib.Tactic.DeriveFintype
import Thunderbolt.Concurrent.System
import Thunderbolt.Task.Handle

/-! The task pool: sharded free lists and per-thread slot caches.

A free slot index sits on one of `kShardCount` lists, each behind its mutex, or
in the cache of a thread. A cache serves the pool whose never-reused id it
carries; taking a slot of another pool flushes it first, to its own pool when
that one is still alive. A step is one critical section, or what a thread does
to its own cache and to the slot it exclusively holds.

Lists are stacks: the head is the back of the code's vector or array. -/
namespace Thunderbolt.Task.TaskPool
open Concurrent

def kShardCount : ℕ := 16
def kMaxBatch : ℕ := 64
def kMinCapacityForCache : ℕ := 1024

abbrev Shard := Fin kShardCount

/-- `(home + offset) % kShardCount`. -/
def probe (home : Shard) (offset : ℕ) : Shard :=
  ⟨(home + offset) % kShardCount, Nat.mod_lt _ (by decide)⟩

/-- What the pool keeps of a slot. -/
structure Slot where
  generation : ℕ
  state : TaskState

structure Pool where
  capacity : ℕ
  cacheBatch : ℕ
  shards : Shard → List ℕ
  slots : ℕ → Slot
  /-- The handles given out and not released. -/
  held : Multiset TaskHandle

/-- The constructor: no cache below `kMinCapacityForCache`, and the indices dealt
round-robin, the low ones last. -/
def Pool.create (capacity : ℕ) (threadCache : Bool) : Pool where
  capacity := capacity
  cacheBatch := if threadCache && kMinCapacityForCache ≤ capacity then
    min kMaxBatch (capacity / (kShardCount * 4)) else 0
  shards k := (List.range capacity).filter fun i => i % kShardCount = k
  slots _ := ⟨0, .Free⟩
  held := 0

/-- A thread's cache; `id` is 0 while it serves no pool. -/
structure ThreadCache where
  id : ℕ
  slots : List ℕ

/-- `acquire` stores `Created` in the slot it takes; `reserve` leaves that to `publish`. -/
inductive Taking where
  | acquire
  | reserve

/-- What a thread goes on to do once its cache is bound to the pool. -/
inductive Next where
  | take (taking : Taking)
  | put (i : ℕ)

/-- Where a thread stands inside an operation on pool `p`. -/
inductive Pc where
  | idle
  /-- `rebind_cache`: about to flush the cache and bind it to `p`. -/
  | rebinding (p : ℕ) (next : Next)
  /-- `refill_cache`: about to look at shard `offset` from home. -/
  | refilling (p : ℕ) (taking : Taking) (offset : ℕ)
  /-- `take_free_slot`: about to pop the cache. -/
  | popping (p : ℕ) (taking : Taking)
  /-- `take_free_slot`, uncached: about to look at shard `offset` from home. -/
  | scanning (p : ℕ) (taking : Taking) (offset : ℕ)
  /-- Slot `i` is taken, about to be initialised and handed out. -/
  | handing (p : ℕ) (taking : Taking) (i : ℕ)
  /-- No slot: about to return an invalid handle. -/
  | exhausted (p : ℕ)
  /-- `release`: slot `i` is `Free`, about to go on a list. -/
  | returning (p : ℕ) (i : ℕ)
  /-- `release`: about to move a batch of the cache to the home shard. -/
  | spilling (p : ℕ) (i : ℕ)
  /-- `release`: about to push on the cache. -/
  | caching (p : ℕ) (i : ℕ)
  /-- `release`, uncached: about to push on the home shard. -/
  | listing (p : ℕ) (i : ℕ)

/-- The pool a thread is operating on. -/
def Pc.pool : Pc → Option ℕ
  | idle => none
  | rebinding p _ | refilling p _ _ | popping p _ | scanning p _ _ | handing p _ _ | exhausted p
  | returning p _ | spilling p _ | caching p _ | listing p _ => some p

structure State (Tid : Type) where
  /-- Every pool ever constructed, by id. -/
  pools : ℕ → Pool
  live : ℕ → Bool
  /-- `g_next_pool_id`. -/
  nextId : ℕ
  cache : Tid → ThreadCache
  pc : Tid → Pc

variable {Tid : Type} [DecidableEq Tid]

namespace State

def goto (s : State Tid) (t : Tid) (p : Pc) : State Tid := {s with pc := Function.update s.pc t p}

def setPool (s : State Tid) (p : ℕ) (pool : Pool) : State Tid :=
  {s with pools := Function.update s.pools p pool}

def setShard (s : State Tid) (p : ℕ) (k : Shard) (l : List ℕ) : State Tid :=
  s.setPool p {s.pools p with shards := Function.update (s.pools p).shards k l}

def setSlot (s : State Tid) (p i : ℕ) (slot : Slot) : State Tid :=
  s.setPool p {s.pools p with slots := Function.update (s.pools p).slots i slot}

def setHeld (s : State Tid) (p : ℕ) (held : Multiset TaskHandle) : State Tid :=
  s.setPool p {s.pools p with held := held}

def setCache (s : State Tid) (t : Tid) (c : ThreadCache) : State Tid :=
  {s with cache := Function.update s.cache t c}

/-- The registry holds the live pools that use caches. -/
def registered (s : State Tid) (id : ℕ) : Bool := s.live id && (s.pools id).cacheBatch != 0

/-- `drain_cache`: to the home shard of the cache's pool, or dropped with it; the
cache then serves `id`. -/
def drain (s : State Tid) (t : Tid) (home : Shard) (id : ℕ) : State Tid :=
  let c := s.cache t
  let s := if c.slots ≠ [] ∧ s.registered c.id then
    s.setShard c.id home (c.slots ++ (s.pools c.id).shards home) else s
  s.setCache t ⟨id, []⟩

end State

/-- One step of thread `t`; `home` is its preferred shard. -/
inductive Step (home : Tid → Shard) (t : Tid) : State Tid → State Tid → Prop where
  | construct {s} (capacity : ℕ) (threadCache : Bool) : s.pc t = .idle →
      Step home t s
        {s.setPool s.nextId (.create capacity threadCache) with
          live := Function.update s.live s.nextId true, nextId := s.nextId + 1}
  /-- Nobody is inside an operation on the pool. -/
  | destroy {s} (p : ℕ) : s.pc t = .idle → s.live p = true → (∀ u, (s.pc u).pool ≠ some p) →
      Step home t s {s with live := Function.update s.live p false}
  /-- The thread's cache is destroyed with it; a thread that goes on is a new one. -/
  | threadExit {s} : s.pc t = .idle → Step home t s (s.drain t (home t) 0)
  | takeRebind {s} (p : ℕ) (taking : Taking) : s.pc t = .idle → s.live p = true →
      (s.pools p).cacheBatch ≠ 0 → (s.cache t).id ≠ p →
      Step home t s (s.goto t (.rebinding p (.take taking)))
  | takeRefill {s} (p : ℕ) (taking : Taking) : s.pc t = .idle → s.live p = true →
      (s.pools p).cacheBatch ≠ 0 → (s.cache t).id = p → (s.cache t).slots = [] →
      Step home t s (s.goto t (.refilling p taking 0))
  | takeCached {s} (p : ℕ) (taking : Taking) : s.pc t = .idle → s.live p = true →
      (s.pools p).cacheBatch ≠ 0 → (s.cache t).id = p → (s.cache t).slots ≠ [] →
      Step home t s (s.goto t (.popping p taking))
  | takeUncached {s} (p : ℕ) (taking : Taking) : s.pc t = .idle → s.live p = true →
      (s.pools p).cacheBatch = 0 → Step home t s (s.goto t (.scanning p taking 0))
  | rebindTake {s p taking} : s.pc t = .rebinding p (.take taking) →
      Step home t s ((s.drain t (home t) p).goto t (.refilling p taking 0))
  | rebindPut {s p i} : s.pc t = .rebinding p (.put i) →
      Step home t s ((s.drain t (home t) p).goto t (.caching p i))
  | refillMiss {s p taking offset} : s.pc t = .refilling p taking offset → offset < kShardCount →
      (s.pools p).shards (probe (home t) offset) = [] →
      Step home t s (s.goto t (.refilling p taking (offset + 1)))
  /-- Up to a batch, popped from the shard and pushed on the cache one by one. -/
  | refill {s p taking offset} : s.pc t = .refilling p taking offset → offset < kShardCount →
      (s.pools p).shards (probe (home t) offset) ≠ [] →
      Step home t s
        (((s.setShard p (probe (home t) offset) (((s.pools p).shards (probe (home t) offset)).drop
              ((s.pools p).cacheBatch - (s.cache t).slots.length))).setCache t
            ⟨(s.cache t).id, (((s.pools p).shards (probe (home t) offset)).take
              ((s.pools p).cacheBatch - (s.cache t).slots.length)).reverse ++ (s.cache t).slots⟩).goto
          t (.popping p taking))
  | refillNone {s p taking offset} : s.pc t = .refilling p taking offset → ¬offset < kShardCount →
      Step home t s (s.goto t (.popping p taking))
  | popNone {s p taking} : s.pc t = .popping p taking → (s.cache t).slots = [] →
      Step home t s (s.goto t (.exhausted p))
  | pop {s p taking i rest} : s.pc t = .popping p taking → (s.cache t).slots = i :: rest →
      Step home t s ((s.setCache t ⟨(s.cache t).id, rest⟩).goto t (.handing p taking i))
  | scanMiss {s p taking offset} : s.pc t = .scanning p taking offset → offset < kShardCount →
      (s.pools p).shards (probe (home t) offset) = [] →
      Step home t s (s.goto t (.scanning p taking (offset + 1)))
  | scan {s p taking offset i rest} : s.pc t = .scanning p taking offset → offset < kShardCount →
      (s.pools p).shards (probe (home t) offset) = i :: rest →
      Step home t s ((s.setShard p (probe (home t) offset) rest).goto t (.handing p taking i))
  | scanNone {s p taking offset} : s.pc t = .scanning p taking offset → ¬offset < kShardCount →
      Step home t s (s.goto t (.exhausted p))
  | fail {s p} : s.pc t = .exhausted p → Step home t s (s.goto t .idle)
  | acquire {s p i} : s.pc t = .handing p .acquire i →
      Step home t s
        (((s.setSlot p i ⟨((s.pools p).slots i).generation, .Created⟩).setHeld p
          (⟨i, ((s.pools p).slots i).generation⟩ ::ₘ (s.pools p).held)).goto t .idle)
  | reserve {s p i} : s.pc t = .handing p .reserve i →
      Step home t s
        ((s.setHeld p (⟨i, ((s.pools p).slots i).generation⟩ ::ₘ (s.pools p).held)).goto t .idle)
  /-- Whoever holds a slot moves it through its lifecycle. -/
  | advance {s} (p : ℕ) (h : TaskHandle) (x : TaskState) : s.pc t = .idle → s.live p = true →
      h ∈ (s.pools p).held →
      Step home t s (s.setSlot p h.index ⟨((s.pools p).slots h.index).generation, x⟩)
  /-- `release`, past the destruction of the body. -/
  | release {s held} (p : ℕ) (h : TaskHandle) : s.pc t = .idle → s.live p = true →
      (s.pools p).held = h ::ₘ held →
      Step home t s
        (((s.setSlot p h.index ⟨(((s.pools p).slots h.index).generation + 1) % word, .Free⟩).setHeld
          p held).goto t (.returning p h.index))
  | putRebind {s p i} : s.pc t = .returning p i → (s.pools p).cacheBatch ≠ 0 → (s.cache t).id ≠ p →
      Step home t s (s.goto t (.rebinding p (.put i)))
  | putSpill {s p i} : s.pc t = .returning p i → (s.pools p).cacheBatch ≠ 0 → (s.cache t).id = p →
      (s.cache t).slots.length = 2 * (s.pools p).cacheBatch →
      Step home t s (s.goto t (.spilling p i))
  | putCached {s p i} : s.pc t = .returning p i → (s.pools p).cacheBatch ≠ 0 → (s.cache t).id = p →
      (s.cache t).slots.length ≠ 2 * (s.pools p).cacheBatch →
      Step home t s (s.goto t (.caching p i))
  | putUncached {s p i} : s.pc t = .returning p i → (s.pools p).cacheBatch = 0 →
      Step home t s (s.goto t (.listing p i))
  /-- The older half goes, the warmer half stays. -/
  | spill {s p i} : s.pc t = .spilling p i →
      Step home t s
        (((s.setShard p (home t)
            ((s.cache t).slots.drop ((s.cache t).slots.length - (s.pools p).cacheBatch) ++
              (s.pools p).shards (home t))).setCache t
            ⟨(s.cache t).id,
              (s.cache t).slots.take ((s.cache t).slots.length - (s.pools p).cacheBatch)⟩).goto
          t (.caching p i))
  | cache {s p i} : s.pc t = .caching p i →
      Step home t s ((s.setCache t ⟨(s.cache t).id, i :: (s.cache t).slots⟩).goto t .idle)
  | list {s p i} : s.pc t = .listing p i →
      Step home t s
        ((s.setShard p (home t) (i :: (s.pools p).shards (home t))).goto t .idle)

/-- No pool yet, every cache empty, nobody inside an operation. -/
structure Initial (s : State Tid) : Prop where
  pools : ∀ p, s.pools p = .create 0 false
  live : ∀ p, s.live p = false
  nextId : s.nextId = 1
  cache : ∀ t, s.cache t = ⟨0, []⟩
  pc : ∀ t, s.pc t = .idle

def system (home : Tid → Shard) : System (State Tid) Tid := ⟨Initial, Step home⟩

/-! ### Where a slot can be -/

/-- The places of a pool's slots. -/
inductive Place (Tid : Type) where
  | shard (k : Shard)
  | cache (t : Tid)
  /-- Handed out, not released. -/
  | held
  /-- Inside an operation of thread `t`. -/
  | transit (t : Tid)
  deriving DecidableEq, Fintype

/-- The index an operation on `p` carries. -/
def Pc.carried (p : ℕ) : Pc → Multiset ℕ
  | handing q _ i | rebinding q (.put i) | returning q i | spilling q i | caching q i
  | listing q i => if q = p then {i} else 0
  | _ => 0

/-- The slots of pool `p` at each place. -/
def contents (s : State Tid) (p : ℕ) : Place Tid → Multiset ℕ
  | .shard k => (s.pools p).shards k
  | .cache t => if (s.cache t).id = p then (s.cache t).slots else 0
  | .held => (s.pools p).held.map TaskHandle.index
  | .transit t => (s.pc t).carried p

end Thunderbolt.Task.TaskPool
