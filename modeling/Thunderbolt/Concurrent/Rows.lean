import Mathlib.Data.List.Basic
import Thunderbolt.Concurrent.Claims

/-! Operations that each work on one row of the memory.

The memory is a table: a row for each key, and a rest that no operation changes. An
operation reads and writes the row of its own key and no other. Then operations of
different keys commute, and a run is settled by the order of the operations within each
row (`Local.run_eq`). -/
namespace Thunderbolt.Concurrent

/-- Each operation works on the row of its key. -/
structure Local {Op M K P : Type*} {R : K → Type*} (act : Op → M → M) (key : Op → K)
    (row : ∀ k, M → R k) (rest : M → P) : Prop where
  /-- The rows and the rest are all there is. -/
  ext : ∀ {m m'}, (∀ k, row k m = row k m') → rest m = rest m' → m = m'
  frame : ∀ o m k, k ≠ key o → row k (act o m) = row k m
  rest : ∀ o m, rest (act o m) = rest m
  reads : ∀ o {m m'}, row (key o) m = row (key o) m' →
    row (key o) (act o m) = row (key o) (act o m')

namespace Local

variable {Op M K P : Type*} {R : K → Type*} {act : Op → M → M} {key : Op → K}
  {row : ∀ k, M → R k} {rest : M → P}

theorem comm (h : Local act key row rest) {o p : Op} (hne : key o ≠ key p) (m : M) :
    act o (act p m) = act p (act o m) := by
  apply h.ext
  · intro k
    by_cases ho : k = key o
    · subst ho
      rw [h.frame p _ _ hne]
      exact h.reads o (h.frame p _ _ hne)
    · rw [h.frame o _ _ ho]
      by_cases hp : k = key p
      · subst hp
        exact (h.reads p (h.frame o _ _ hne.symm)).symm
      · rw [h.frame p _ _ hp, h.frame p _ _ hp, h.frame o _ _ ho]
  · rw [h.rest, h.rest, h.rest, h.rest]

/-- A run leaves the rest alone. -/
theorem rest_run (h : Local act key row rest) (ops : List Op) (m : M) :
    rest (ops.foldl (fun m o => act o m) m) = rest m := by
  induction ops generalizing m with
  | nil => rfl
  | cons o ops ih => rw [List.foldl_cons, ih, h.rest]

/-- What a run leaves in a row is the work of the row's own operations. -/
theorem row_run [DecidableEq K] (h : Local act key row rest) (k : K) (ops : List Op) {m m' : M}
    (hrow : row k m = row k m') :
    row k (ops.foldl (fun m o => act o m) m) =
      row k ((ops.filter fun o => key o = k).foldl (fun m o => act o m) m') := by
  induction ops generalizing m m' with
  | nil => exact hrow
  | cons o ops ih =>
    rw [List.foldl_cons, List.filter_cons]
    by_cases ho : key o = k
    · subst ho
      rw [if_pos (by simp), List.foldl_cons]
      exact ih (h.reads o hrow)
    · rw [if_neg (by simpa using ho)]
      exact ih ((h.frame o m k (Ne.symm ho)).trans hrow)

/-- **Runs agree when they agree in each row.** -/
theorem run_eq [DecidableEq K] (h : Local act key row rest) {ops ops' : List Op}
    (heq : ∀ k, (ops.filter fun o => key o = k) = ops'.filter fun o => key o = k) (m : M) :
    ops.foldl (fun m o => act o m) m = ops'.foldl (fun m o => act o m) m := by
  apply h.ext
  · intro k
    rw [h.row_run k ops rfl, h.row_run k ops' rfl, heq]
  · rw [h.rest_run, h.rest_run]

/-- Loops whose bodies work on different rows are independent. -/
theorem independent {C V : Type*} {L : Claims.Loops C V Op M} (h : Local L.act key row rest)
    (hfresh : ∀ c, Function.Injective (L.value c))
    (hkeys : ∀ {c v d w o p}, (c, v) ≠ (d, w) → o ∈ L.ops c v → p ∈ L.ops d w → key o ≠ key p) :
    L.Independent where
  fresh := hfresh
  comm hne ho hp m := h.comm (hkeys hne ho hp) m

end Local

end Thunderbolt.Concurrent
