import Mathlib.Data.Nat.Notation

/-! The task vocabulary: handles, lifecycle states, priorities. -/
namespace Thunderbolt

/-- `2^32`: 32-bit unsigned counters wrap here. -/
def word : ℕ := 0x100000000

/-- A slot index and the generation the slot had when the handle was issued. -/
structure TaskHandle where
  index : ℕ
  generation : ℕ
  deriving DecidableEq

namespace TaskHandle

def kInvalidIndex : ℕ := 0xFFFFFFFF

/-- `TaskHandle{}`. -/
def none : TaskHandle := ⟨kInvalidIndex, 0⟩

def valid (h : TaskHandle) : Bool := h.index != kInvalidIndex

end TaskHandle

inductive TaskState where
  | Free | Created | Waiting | Ready | Queued | Claimed | Executing | Completed
  deriving DecidableEq

/-- Lower is more urgent. -/
inductive TaskPriority where
  | Critical | High | Normal | Low | Background
  deriving DecidableEq

/-- The value the enumeration stores. -/
def TaskPriority.level : TaskPriority → ℕ
  | Critical => 0
  | High => 1
  | Normal => 2
  | Low => 3
  | Background => 4

end Thunderbolt
