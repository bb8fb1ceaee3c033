import Mathlib.Algebra.BigOperators.Group.Finset.Basic
import Mathlib.Algebra.Order.BigOperators.Group.Finset

/-! What is kept in places.

Things that move between places, and are neither made nor lost, have a constant
total: `Transfer` is one move, `Transfer.sum_eq` its conservation law. When the
total of a family of multisets has no duplicates, each of its elements is at one
place (`exists_unique_place`). -/
namespace Thunderbolt.Concurrent

variable {ι M α : Type*}

/-- `g` is `f` with something moved between two places. -/
inductive Transfer [Add M] (f : ι → M) : (ι → M) → Prop where
  | same : Transfer f f
  | move {g : ι → M} (a b : ι) (hab : a ≠ b) (hpair : g a + g b = f a + f b)
      (hrest : ∀ x, x ≠ a → x ≠ b → g x = f x) : Transfer f g

namespace Transfer

theorem of_eq [Add M] {f g : ι → M} (h : g = f) : Transfer f g := h ▸ .same

/-- Writing two places so that they hold together what they held. -/
theorem update [Add M] [DecidableEq ι] {f : ι → M} {a b : ι} (hab : a ≠ b) {x y : M}
    (h : x + y = f a + f b) : Transfer f (Function.update (Function.update f a x) b y) := by
  refine .move a b hab ?_ fun z hza hzb => ?_
  · rw [Function.update_of_ne hab, Function.update_self, Function.update_self, h]
  · rw [Function.update_of_ne hzb, Function.update_of_ne hza]

/-- The total is conserved. -/
theorem sum_eq [AddCommMonoid M] [Fintype ι] {f g : ι → M} (h : Transfer f g) :
    ∑ x, g x = ∑ x, f x := by
  classical
  cases h with
  | same => rfl
  | move a b hab hpair hrest =>
    have hsplit : ∀ k : ι → M, ∑ x, k x = k a + k b + ∑ x ∈ (Finset.univ.erase a).erase b, k x := by
      intro k
      rw [← Finset.add_sum_erase _ k (Finset.mem_univ a),
        ← Finset.add_sum_erase _ k (Finset.mem_erase.mpr ⟨hab.symm, Finset.mem_univ b⟩), add_assoc]
    rw [hsplit g, hsplit f, hpair]
    congr 1
    apply Finset.sum_congr rfl
    intro x hx
    obtain ⟨hxb, hx⟩ := Finset.mem_erase.mp hx
    exact hrest x (Finset.ne_of_mem_erase hx) hxb

end Transfer

/-- Something new at one place. -/
theorem sum_update_add [AddCommMonoid M] [Fintype ι] [DecidableEq ι] (f : ι → M) (a : ι) (x : M) :
    ∑ z, Function.update f a (x + f a) z = x + ∑ z, f z := by
  rw [← Finset.add_sum_erase _ _ (Finset.mem_univ a), ← Finset.add_sum_erase _ f (Finset.mem_univ a),
    Function.update_self, add_assoc]
  congr 2
  apply Finset.sum_congr rfl
  intro z hz
  exact Function.update_of_ne (Finset.ne_of_mem_erase hz) _ _

/-- A total of one is all at one place. -/
theorem eq_of_sum_one [Fintype ι] [DecidableEq ι] {f : ι → ℕ} (hsum : ∑ z, f z = 1) {x : ι}
    (hx : 0 < f x) (y : ι) : f y = if y = x then 1 else 0 := by
  rw [← Finset.add_sum_erase _ f (Finset.mem_univ x)] at hsum
  by_cases hy : y = x
  · rw [if_pos hy, hy]
    omega
  · have hle := Finset.single_le_sum (f := f) (fun _ _ => Nat.zero_le _)
      (Finset.mem_erase.mpr ⟨hy, Finset.mem_univ y⟩)
    rw [if_neg hy]
    omega

/-- In a total without duplicates, one element is at one place. -/
theorem place_unique [Fintype ι] {f : ι → Multiset α} (hnodup : (∑ x, f x).Nodup) {i : α} {x y : ι}
    (hx : i ∈ f x) (hy : i ∈ f y) : x = y := by
  classical
  by_contra hxy
  have hle : ∑ z ∈ {x, y}, f z ≤ ∑ z, f z :=
    Finset.sum_le_sum_of_subset (Finset.subset_univ _)
  rw [Finset.sum_pair hxy] at hle
  exact Multiset.disjoint_left.mp (Multiset.nodup_add.mp (Multiset.nodup_of_le hle hnodup)).2.2 hx hy

theorem exists_unique_place [Fintype ι] {f : ι → Multiset α} (hnodup : (∑ x, f x).Nodup) {i : α}
    (hi : i ∈ ∑ x, f x) : ∃! x, i ∈ f x := by
  obtain ⟨x, _, hx⟩ := Multiset.mem_sum.mp hi
  exact ⟨x, hx, fun y hy => place_unique hnodup hy hx⟩

end Thunderbolt.Concurrent
