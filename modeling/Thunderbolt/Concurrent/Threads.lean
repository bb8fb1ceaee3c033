import Mathlib.Algebra.BigOperators.Group.Finset.Basic
import Mathlib.Data.Fintype.Basic
import Mathlib.Data.Finset.Card
import Mathlib.Data.Nat.Count
import Mathlib.Logic.Function.Basic

/-! Program counters of many threads.

A concurrent state holds one program counter a thread, `pc : Tid → Pc`, and a
step moves one thread: `Function.update pc t p`. What invariants need of it is
here: how many threads stand at counters satisfying a predicate, and how one
move changes that number; and the same for things that are numbered. -/
namespace Thunderbolt.Concurrent

variable {Tid Pc : Type*} [Fintype Tid]

/-- How many threads are at a counter satisfying `P`. -/
def count (P : Pc → Bool) (pc : Tid → Pc) : ℕ :=
  (Finset.univ.filter fun t => P (pc t) = true).card

theorem count_eq_zero {P : Pc → Bool} {pc : Tid → Pc} :
    count P pc = 0 ↔ ∀ t, P (pc t) = false := by
  simp [count, Finset.filter_eq_empty_iff]

theorem count_pos {P : Pc → Bool} {pc : Tid → Pc} {t : Tid} (h : P (pc t) = true) :
    0 < count P pc :=
  Finset.card_pos.mpr ⟨t, by simp [h]⟩

/-- Where one thread is not counted, not all are. -/
theorem count_lt_card {P : Pc → Bool} {pc : Tid → Pc} {t : Tid} (h : P (pc t) = false) :
    count P pc < Fintype.card Tid :=
  Finset.card_lt_univ_of_notMem (x := t) (by simp [h])

theorem count_eq_card {P : Pc → Bool} {pc : Tid → Pc} (h : ∀ t, P (pc t) = true) :
    count P pc = Fintype.card Tid := by
  simp [count, h]

/-- Threads `P` does not tell apart count the same. -/
theorem count_congr {P : Pc → Bool} {pc pc' : Tid → Pc} (h : ∀ t, P (pc t) = P (pc' t)) :
    count P pc = count P pc' := by
  simp only [count, h]

variable [DecidableEq Tid]

/-- Leaving out one thread's own contribution. -/
theorem count_erase (P : Pc → Bool) (pc : Tid → Pc) (t : Tid) :
    count P pc = ((Finset.univ.erase t).filter fun u => P (pc u) = true).card +
      (P (pc t)).toNat := by
  have hsplit : (Finset.univ : Finset Tid) = insert t (Finset.univ.erase t) := by simp
  unfold count
  conv_lhs => rw [hsplit]
  rw [Finset.filter_insert]
  cases hP : P (pc t)
  · simp
  · rw [if_pos rfl, Finset.card_insert_of_notMem (by simp)]
    rfl

/-- One thread moving changes the number by what it stood at and what it stands at. -/
theorem count_update (P : Pc → Bool) (pc : Tid → Pc) (t : Tid) (p : Pc) :
    count P (Function.update pc t p) + (P (pc t)).toNat = count P pc + (P p).toNat := by
  have hother : (Finset.univ.erase t).filter (fun u => P (Function.update pc t p u) = true) =
      (Finset.univ.erase t).filter (fun u => P (pc u) = true) := by
    apply Finset.filter_congr
    intro u hu
    rw [Function.update_of_ne (Finset.ne_of_mem_erase hu)]
  rw [count_erase P (Function.update pc t p) t, count_erase P pc t, hother,
    Function.update_self]
  omega

/-- Between two counters `P` does not tell apart, the number stays. -/
theorem count_update_same {P : Pc → Bool} {pc : Tid → Pc} {t : Tid} {p : Pc}
    (h : P p = P (pc t)) : count P (Function.update pc t p) = count P pc := by
  have := count_update P pc t p
  rw [h] at this
  omega

/-- One thread moving changes a sum over the threads by what it adds where it stands. -/
theorem sum_update {M : Type*} [AddCommMonoid M] (w : Pc → M) (pc : Tid → Pc) (t : Tid) (p : Pc) :
    ∑ u, w (Function.update pc t p u) + w (pc t) = ∑ u, w (pc u) + w p := by
  have hother : ∑ u ∈ Finset.univ.erase t, w (Function.update pc t p u) =
      ∑ u ∈ Finset.univ.erase t, w (pc u) := by
    apply Finset.sum_congr rfl
    intro u hu
    rw [Function.update_of_ne (Finset.ne_of_mem_erase hu)]
  rw [← Finset.add_sum_erase _ _ (Finset.mem_univ t), ← Finset.add_sum_erase _ _ (Finset.mem_univ t),
    hother, Function.update_self]
  ac_rfl

/-! ### Numbered things -/

section Numbered
variable {p q : ℕ → Prop} [DecidablePred p] [DecidablePred q] {j n : ℕ}

theorem natCount_congr (h : ∀ k < n, p k ↔ q k) : Nat.count p n = Nat.count q n :=
  (Nat.count_mono_left fun k hk => (h k hk).mp).antisymm
    (Nat.count_mono_left fun k hk => (h k hk).mpr)

/-- One number less satisfies `q` than `p`. -/
theorem natCount_remove (hj : j < n) (hp : p j) (hq : ¬q j) (hrest : ∀ k, k ≠ j → (p k ↔ q k)) :
    Nat.count p n = Nat.count q n + 1 := by
  induction n with
  | zero => omega
  | succ n ih =>
    rw [Nat.count_succ, Nat.count_succ]
    rcases Nat.lt_succ_iff_lt_or_eq.mp hj with hlt | rfl
    · rw [ih hlt]
      have : (if p n then 1 else 0) = if q n then 1 else 0 := by
        simp [hrest n (by omega)]
      omega
    · rw [if_pos hp, if_neg hq, natCount_congr fun k hk => hrest k (by omega)]

/-- The numbers that satisfy `p` are those that satisfy one of two exclusive predicates. -/
theorem natCount_split {r : ℕ → Prop} [DecidablePred r] (hsplit : ∀ k, p k ↔ q k ∨ r k)
    (hexcl : ∀ k, q k → ¬r k) : Nat.count p n = Nat.count q n + Nat.count r n := by
  induction n with
  | zero => rfl
  | succ n ih =>
    rw [Nat.count_succ, Nat.count_succ, Nat.count_succ, ih]
    have hp := hsplit n
    by_cases hq : q n
    · have hr := hexcl n hq
      simp only [hp, hq, hr, if_true, if_false, true_or]
      omega
    · simp only [hp, hq, if_false, false_or]
      omega

end Numbered

end Thunderbolt.Concurrent
