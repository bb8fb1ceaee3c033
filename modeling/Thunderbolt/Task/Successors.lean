import Mathlib.Data.Nat.Notation
import Mathlib.Logic.Function.Basic
import Mathlib.Data.List.OfFn

/-! The successor list of a task slot.

`kInlineSuccessors` entries live in the slot, later ones in a heap vector; the
list is closed when its task completes and opened again when the slot is handed
to a new task. `entries` is what the list holds, in registration order, and each
operation is stated on it. The entry type is left open: the code stores handles,
and a proof may store handles with the edge each one stands for. -/
namespace Thunderbolt

def kInlineSuccessors : ℕ := 6

/-- The successor fields of `Task`. Nothing spills before the inline slots are full. -/
structure Successors (α : Type*) where
  closed : Bool
  count : ℕ
  inlined : Fin kInlineSuccessors → α
  spilled : List α
  spilled_length : spilled.length = count - kInlineSuccessors

namespace Successors
variable {α : Type*}

/-- Inline entries first, then the spilled ones: the order `take_successors` copies in. -/
def entries (l : Successors α) : List α := (List.ofFn l.inlined).take l.count ++ l.spilled

/-- A slot's list before its first task: open and empty. -/
def initial (x : α) : Successors α := ⟨false, 0, fun _ => x, [], rfl⟩

def push (l : Successors α) (x : α) : Successors α :=
  if h : l.count < kInlineSuccessors then
    {l with
      count := l.count + 1
      inlined := Function.update l.inlined ⟨l.count, h⟩ x
      spilled_length := by
        have := l.spilled_length
        omega}
  else
    {l with
      count := l.count + 1
      spilled := l.spilled ++ [x]
      spilled_length := by
        have := l.spilled_length
        simp only [List.length_append, List.length_singleton]
        omega}

/-- `try_add_successor`, on a slot at `generation`. -/
def tryAdd (l : Successors α) (generation expectedGeneration : ℕ) (x : α) : Successors α × Bool :=
  if !l.closed && generation == expectedGeneration then (l.push x, true) else (l, false)

/-- `take_successors`: the list afterwards, and `out`, whatever it held before. -/
def take (l : Successors α) (_out : List α) : Successors α × List α :=
  (⟨true, 0, l.inlined, [], rfl⟩, l.entries)

/-- `reset_successors`: dormant, and closed. -/
def reset (l : Successors α) : Successors α := ⟨true, 0, l.inlined, [], rfl⟩

/-- `open_successors`. -/
def reopen (l : Successors α) : Successors α := ⟨false, 0, l.inlined, [], rfl⟩

/-! ### What each operation does to the entries -/

@[simp] theorem entries_initial (x : α) : (initial x).entries = [] := rfl

@[simp] theorem entries_reset (l : Successors α) : l.reset.entries = [] := rfl

@[simp] theorem entries_reopen (l : Successors α) : l.reopen.entries = [] := rfl

@[simp] theorem entries_take (l : Successors α) (out : List α) : (l.take out).1.entries = [] := rfl

@[simp] theorem take_out (l : Successors α) (out : List α) : (l.take out).2 = l.entries := rfl

@[simp] theorem closed_push (l : Successors α) (x : α) : (l.push x).closed = l.closed := by
  unfold push
  split <;> rfl

/-- The entries a write at position `n` leaves in the first `n + 1` positions. -/
theorem take_update (f : Fin kInlineSuccessors → α) (n : ℕ) (h : n < kInlineSuccessors) (x : α) :
    (List.ofFn (Function.update f ⟨n, h⟩ x)).take (n + 1) = (List.ofFn f).take n ++ [x] := by
  rw [List.take_add_one]
  congr 1
  · apply List.ext_getElem (by simp)
    intro i hi _
    have hin : i ≠ n := by
      simp only [List.length_take] at hi
      omega
    simp [Function.update_of_ne, hin]
  · simp [h]

theorem entries_push (l : Successors α) (x : α) : (l.push x).entries = l.entries ++ [x] := by
  unfold push
  split
  case isTrue h =>
    have hnone : l.spilled = [] := by
      apply List.length_eq_zero_iff.mp
      rw [l.spilled_length]
      omega
    simp [entries, take_update, hnone]
  case isFalse h =>
    have hfull : ∀ n, kInlineSuccessors ≤ n → (List.ofFn l.inlined).take n = List.ofFn l.inlined := by
      intro n hn
      exact List.take_of_length_le (by simpa using hn)
    simp only [entries]
    rw [hfull _ (by omega), hfull _ (by omega), List.append_assoc]

/-- An open list of the right generation takes the entry; any other refuses it. -/
theorem tryAdd_eq (l : Successors α) (g e : ℕ) (x : α) :
    (l.tryAdd g e x).2 = (!l.closed && g == e) ∧
      (l.tryAdd g e x).1.entries = if !l.closed && g == e then l.entries ++ [x] else l.entries := by
  unfold tryAdd
  split
  case isTrue h => exact ⟨h.symm, entries_push l x⟩
  case isFalse h => exact ⟨by simpa using h, rfl⟩

end Successors
end Thunderbolt
