import Mathlib.Algebra.Order.BigOperators.Group.Finset
import Mathlib.Data.Fintype.BigOperators

/-! Adding up cells that others add to.

A reader loads the cells one after the other and adds up what it sees, while the cells grow.
It never sees all of them at one time; but what it gets is no less than they held together when
it began, and no more than they hold when it is through (`Collect.result`). -/
namespace Thunderbolt.Concurrent

variable {n : ℕ} {M : Type*} [AddCommMonoid M] [PartialOrder M] [IsOrderedAddMonoid M]
  {cells cells' : Fin n → M} {i : ℕ} {base total : M}

/-- A reader that began when the cells held `base`, has loaded those below `i`, and has got `total`. -/
structure Collect (cells : Fin n → M) (base : M) (i : ℕ) (total : M) : Prop where
  lower : base ≤ total + ∑ j with i ≤ j.val, cells j
  upper : total ≤ ∑ j with j.val < i, cells j

namespace Collect

omit [IsOrderedAddMonoid M] in
theorem start (cells : Fin n → M) : Collect cells (∑ j, cells j) 0 0 where
  lower := by simp
  upper := by simp

/-- The cells grow. -/
theorem grow (h : Collect cells base i total) (hle : ∀ j, cells j ≤ cells' j) :
    Collect cells' base i total where
  lower := h.lower.trans (add_le_add_right (Finset.sum_le_sum fun j _ => hle j) total)
  upper := h.upper.trans (Finset.sum_le_sum fun j _ => hle j)

/-- The next cell is loaded. -/
theorem load (h : Collect cells base i total) (hi : i < n) :
    Collect cells base (i + 1) (total + cells ⟨i, hi⟩) := by
  have hfrom : ∑ j with i ≤ j.val, cells j = cells ⟨i, hi⟩ + ∑ j with i + 1 ≤ j.val, cells j := by
    rw [← Finset.sum_insert (by simp)]
    congr 1
    ext j
    simp [Fin.ext_iff]
    omega
  have hbelow : ∑ j with j.val < i + 1, cells j = cells ⟨i, hi⟩ + ∑ j with j.val < i, cells j := by
    rw [← Finset.sum_insert (by simp)]
    congr 1
    ext j
    simp [Fin.ext_iff]
    omega
  refine ⟨?_, ?_⟩
  · rw [add_assoc, ← hfrom]
    exact h.lower
  · rw [hbelow, add_comm total]
    exact add_le_add_right h.upper _

omit [IsOrderedAddMonoid M] in
/-- **What a reader gets lies between what the cells held and what they hold.** -/
theorem result (h : Collect cells base n total) : base ≤ total ∧ total ≤ ∑ j, cells j := by
  refine ⟨?_, h.upper.trans_eq ?_⟩
  · have hnone : ∑ j : Fin n with n ≤ j.val, cells j = 0 := by
      apply Finset.sum_eq_zero
      intro j hj
      exact absurd (Finset.mem_filter.mp hj).2 (Nat.not_le.mpr j.isLt)
    simpa [hnone] using h.lower
  · rw [Finset.filter_true_of_mem fun j _ => j.isLt]

end Collect

end Thunderbolt.Concurrent
