import Mathlib.Data.Int.Notation
import Mathlib.Data.Nat.Bitwise
import Mathlib.Logic.Function.Basic
import Thunderbolt.Concurrent.System

/-! The work-stealing deque, one atomic step at a time.

The owner pushes and pops at `bottom_`, thieves take from `top_`. Every load,
store and compare-exchange of `top_`, `bottom_` and a buffer slot is a step of
its own; between two of them any other thread may move. The indices are 64-bit
in the code and integers here: they stay between -1 and the number of pushes.

The last three fields of a state are history and decide nothing: the pushes made,
which of them wrote each index last, and the elements operations returned. -/
namespace Thunderbolt.Executor.AbpDeque
open Concurrent

/-- Where the owner stands. `b` and `t` are what it read of `bottom_` and `top_`. -/
inductive OwnerPc (α : Type*) where
  | idle
  /-- `push`: about to read `top_`. -/
  | pushTop (value : α) (b : ℤ)
  /-- `push`: past the capacity check, about to write the slot. -/
  | pushWrite (value : α) (b : ℤ)
  /-- `push`: about to store `bottom_`. -/
  | pushPublish (value : α) (b : ℤ)
  /-- `pop`: about to store the lowered `bottom_`. -/
  | popStore (b : ℤ)
  /-- `pop`: about to read `top_`. -/
  | popTop (b : ℤ)
  /-- `pop`: empty, about to restore `bottom_`. -/
  | popEmpty (b : ℤ)
  /-- `pop`: about to read the slot. -/
  | popRead (b t : ℤ)
  /-- `pop`: the last element, about to compare-exchange `top_`. -/
  | popCas (b t : ℤ) (out : α)
  /-- `pop`: about to restore `bottom_` and return `won`. -/
  | popRestore (b : ℤ) (out : α) (won : Bool)

/-- Where a thief stands. -/
inductive ThiefPc (α : Type*) where
  | idle
  /-- `steal`: about to read `bottom_`. -/
  | stealBottom (t : ℤ)
  /-- `steal`: not empty, about to read the slot. -/
  | stealRead (t : ℤ)
  /-- `steal`: about to compare-exchange `top_`. -/
  | stealCas (t : ℤ) (out : α)

/-- One element returned: its index, which push it is, and how it was taken. -/
structure Return (α : Type*) where
  index : ℤ
  push : ℕ
  value : α
  stolen : Bool

structure State (Tid α : Type*) where
  /-- `top_`. -/
  top : ℤ
  /-- `bottom_`. -/
  bottom : ℤ
  /-- `buffer_`. -/
  buffer : ℕ → α
  owner : OwnerPc α
  thief : Tid → ThiefPc α
  /-- The pushes published so far, each with its index. -/
  pushed : List (ℤ × α)
  /-- The latest push at each index, as a position in `pushed`. -/
  occupant : ℤ → ℕ
  returned : List (Return α)

/-- `index & mask_`, in a deque of `2 ^ k` slots. -/
def slot (k : ℕ) (i : ℤ) : ℕ := i.toNat &&& (2 ^ k - 1)

inductive Mover (Tid : Type*) where
  | owner
  | thief (t : Tid)

variable {Tid α : Type*} [DecidableEq Tid]

/-- The thief `t` goes on at `p`. -/
def State.thiefAt (s : State Tid α) (t : Tid) (p : ThiefPc α) : State Tid α :=
  {s with thief := Function.update s.thief t p}

/-- One atomic step on a deque of `2 ^ k` slots. -/
inductive Step (k : ℕ) : Mover Tid → State Tid α → State Tid α → Prop where
  | push {s} (v : α) : s.owner = .idle →
      Step k .owner s {s with owner := .pushTop v s.bottom}
  /-- Full. -/
  | pushFull {s v b} : s.owner = .pushTop v b → b - s.top ≥ 2 ^ k →
      Step k .owner s {s with owner := .idle}
  | pushTop {s v b} : s.owner = .pushTop v b → ¬b - s.top ≥ 2 ^ k →
      Step k .owner s {s with owner := .pushWrite v b}
  | pushWrite {s v b} : s.owner = .pushWrite v b →
      Step k .owner s
        {s with owner := .pushPublish v b, buffer := Function.update s.buffer (slot k b) v}
  | pushPublish {s v b} : s.owner = .pushPublish v b →
      Step k .owner s
        {s with
          owner := .idle, bottom := b + 1, pushed := s.pushed ++ [(b, v)]
          occupant := Function.update s.occupant b s.pushed.length}
  | pop {s} : s.owner = .idle → Step k .owner s {s with owner := .popStore (s.bottom - 1)}
  | popStore {s b} : s.owner = .popStore b →
      Step k .owner s {s with owner := .popTop b, bottom := b}
  | popNone {s b} : s.owner = .popTop b → s.top > b →
      Step k .owner s {s with owner := .popEmpty b}
  | popSome {s b} : s.owner = .popTop b → ¬s.top > b →
      Step k .owner s {s with owner := .popRead b s.top}
  | popEmpty {s b} : s.owner = .popEmpty b →
      Step k .owner s {s with owner := .idle, bottom := b + 1}
  /-- More than one item: no thief can be after this one. -/
  | popTake {s b t} : s.owner = .popRead b t → t ≠ b →
      Step k .owner s
        {s with
          owner := .idle
          returned := s.returned ++ [⟨b, s.occupant b, s.buffer (slot k b), false⟩]}
  | popLast {s b t} : s.owner = .popRead b t → t = b →
      Step k .owner s {s with owner := .popCas b t (s.buffer (slot k b))}
  | popWon {s b t v} : s.owner = .popCas b t v → s.top = t →
      Step k .owner s {s with owner := .popRestore b v true, top := t + 1}
  | popLost {s b t v} : s.owner = .popCas b t v → s.top ≠ t →
      Step k .owner s {s with owner := .popRestore b v false}
  | popReturn {s b v} : s.owner = .popRestore b v true →
      Step k .owner s
        {s with
          owner := .idle, bottom := b + 1
          returned := s.returned ++ [⟨b, s.occupant b, v, false⟩]}
  | popFail {s b v} : s.owner = .popRestore b v false →
      Step k .owner s {s with owner := .idle, bottom := b + 1}
  | steal {s t} : s.thief t = .idle → Step k (.thief t) s (s.thiefAt t (.stealBottom s.top))
  | stealEmpty {s t i} : s.thief t = .stealBottom i → i ≥ s.bottom →
      Step k (.thief t) s (s.thiefAt t .idle)
  | stealSome {s t i} : s.thief t = .stealBottom i → ¬i ≥ s.bottom →
      Step k (.thief t) s (s.thiefAt t (.stealRead i))
  | stealRead {s t i} : s.thief t = .stealRead i →
      Step k (.thief t) s (s.thiefAt t (.stealCas i (s.buffer (slot k i))))
  | stealWon {s t i v} : s.thief t = .stealCas i v → s.top = i →
      Step k (.thief t) s
        (State.thiefAt
          {s with top := i + 1, returned := s.returned ++ [⟨i, s.occupant i, v, true⟩]} t .idle)
  | stealAbort {s t i v} : s.thief t = .stealCas i v → s.top ≠ i →
      Step k (.thief t) s (s.thiefAt t .idle)

/-- Empty, with nobody inside an operation; the buffer and `occupant` hold anything. -/
structure Initial (s : State Tid α) : Prop where
  top : s.top = 0
  bottom : s.bottom = 0
  owner : s.owner = .idle
  thief : ∀ t, s.thief t = .idle
  pushed : s.pushed = []
  returned : s.returned = []

def system (Tid α : Type*) [DecidableEq Tid] (k : ℕ) : System (State Tid α) (Mover Tid) :=
  ⟨Initial, Step k⟩

/-- No operation is in progress. -/
def Quiet (s : State Tid α) : Prop := s.owner = .idle ∧ ∀ t, s.thief t = .idle

end Thunderbolt.Executor.AbpDeque
