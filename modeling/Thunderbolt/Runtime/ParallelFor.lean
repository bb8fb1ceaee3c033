import Thunderbolt.Concurrent.Claims
import Thunderbolt.Task.Handle

/-! `parallel_for`.

At most `worker_count` tasks claim chunks of a range off a shared cursor, each
running the body on a chunk before it claims the next. All of it is computed in
`size_t`: the sums wrap at `2 ^ 64`. -/
namespace Thunderbolt.Runtime.ParallelFor
open Concurrent

/-- `2^64`: a `size_t` is below it. -/
def size : ℕ := 0x10000000000000000

/-- The arguments of a call, on a runtime with `worker_count` workers. -/
structure Call where
  begin : ℕ
  end_ : ℕ
  grain : ℕ
  worker_count : ℕ
  begin_lt : begin < size
  end_lt : end_ < size
  grain_lt : grain < size

/-- A chunk the body is invoked on. -/
abbrev Chunk := ℕ × ℕ

namespace Call

/-- The size of a chunk: a grain of zero counts as one. -/
def step (c : Call) : ℕ := if c.grain = 0 then 1 else c.grain

def count (c : Call) : ℕ := c.end_ - c.begin

def batch_count (c : Call) : ℕ := (c.count + c.step - 1) % size / c.step

def worker_cap (c : Call) : ℕ := if c.worker_count = 0 then 1 else c.worker_count

/-- How many tasks are submitted. -/
def task_count (c : Call) : ℕ :=
  if c.begin ≥ c.end_ then 0
  else if c.batch_count < c.worker_cap then c.batch_count else c.worker_cap

/-- Where the chunk that begins at `lo` ends. -/
def hi (c : Call) (lo : ℕ) : ℕ :=
  if (lo + c.step) % size < c.end_ then (lo + c.step) % size else c.end_

/-- What each of the tasks does. -/
def loops (c : Call) : Claims.Loops Unit ℕ Chunk (List Chunk) where
  start _ := c.begin
  next _ lo := (lo + c.step) % size
  stop _ lo := lo ≥ c.end_
  ops _ lo := [(lo, c.hi lo)]
  act chunk invoked := invoked ++ [chunk]

abbrev State (c : Call) := Claims.State Unit ℕ Chunk (List Chunk) (Fin c.task_count)

/-- The tasks, in any interleaving; the memory is the chunks the body was invoked on.
The call returns when it has waited for all of them: when they are `Finished`. -/
def system (c : Call) : System c.State (Fin c.task_count) :=
  Claims.system c.loops (fun _ => ()) []

/-- The chunks make up the range. -/
structure Covers (c : Call) (invoked : List Chunk) : Prop where
  nonempty : ∀ x ∈ invoked, x.1 < x.2
  length : ∀ x ∈ invoked, x.2 - x.1 ≤ max c.grain 1
  inside : ∀ x ∈ invoked, c.begin ≤ x.1 ∧ x.2 ≤ c.end_
  disjoint : invoked.Pairwise fun x y => x.2 ≤ y.1 ∨ y.2 ≤ x.1
  union : ∀ i, c.begin ≤ i → i < c.end_ → ∃ x ∈ invoked, x.1 ≤ i ∧ i < x.2

/-- The call goes as it should: whatever has happened it can still return, and when it
returns the chunks make up the range. -/
structure Correct (c : Call) : Prop where
  returns : ∀ s, Reachable c.system s → ∃ s', Reachable (c.system.startingAt s) s' ∧ s'.Finished
  covers : ∀ s, Reachable c.system s → s.Finished → c.Covers s.mem

/-- The chunks there are, with no sum wrapping. -/
def batches (c : Call) : ℕ := (c.count + c.step - 1) / c.step

/-- No sum wraps: not that of the number of chunks, and not the cursor when each task
has read it once behind the range. -/
def Fits (c : Call) : Prop :=
  c.begin < c.end_ → c.count + c.step - 1 < size ∧
    c.begin + (c.batches + min c.batches c.worker_cap - 1) * c.step < size

end Call

end Thunderbolt.Runtime.ParallelFor
