import Mathlib
import Thunderbolt.Concurrent.Collect
import Thunderbolt.Concurrent.System

/-! The counters that are cheap to write.

Each thread adds to one of sixteen slots, the one that it got at its first use of any counter, and
a report adds the slots up, one load after the other. All that is ever added is one. What a
report says was true at some moment of the call: it counts all that had been added when it
began, and nothing that has not been added (`sum_between`). The slots and their sum are integers here; they
are the code's as long as there are fewer than `2 ^ 63` increments. -/
namespace Thunderbolt.Runtime.ShardedCounter
open Concurrent

def kCounterShards : ℕ := 16

inductive Pc where
  | idle
  /-- In `sum`: the slots below `i` have been loaded. -/
  | summing (i : ℕ) (total : ℤ)

/-- What `unsigned_sum` makes of it. -/
def unsigned_sum (total : ℤ) : ℕ := if total > 0 then total.toNat else 0

structure State (Thread : Type*) where
  /-- `g_next_slot` -/
  next_slot : BitVec 32
  /-- `thread_slot`: the thread's own, once it has asked. -/
  slot : Thread → Option (Fin kCounterShards)
  /-- 64 bits each in the code. -/
  slots : Fin kCounterShards → ℤ
  pc : Thread → Pc
  /-- How often `increment` has been called. -/
  increments : ℕ
  /-- What `unsigned_sum` has returned so far. -/
  returned : List ℕ
  /-- `increments` and `returned`, when the thread's call of `sum` began. -/
  began : Thread → ℕ × List ℕ

variable {Thread : Type*} [DecidableEq Thread]

inductive Step : Thread → State Thread → State Thread → Prop where
  | thread_slot {s t} : s.pc t = .idle → s.slot t = none →
      Step t s {s with
        next_slot := s.next_slot + 1
        slot := Function.update s.slot t (some ⟨s.next_slot.toNat % kCounterShards, Nat.mod_lt _ (by decide)⟩)}
  | increment {s t i} : s.pc t = .idle → s.slot t = some i →
      Step t s {s with
        slots := Function.update s.slots i (s.slots i + 1), increments := s.increments + 1}
  | sum {s t} : s.pc t = .idle →
      Step t s {s with
        pc := Function.update s.pc t (.summing 0 0)
        began := Function.update s.began t (s.increments, s.returned)}
  | load {s t i total} : s.pc t = .summing i total → (hi : i < kCounterShards) →
      Step t s {s with pc := Function.update s.pc t (.summing (i + 1) (total + s.slots ⟨i, hi⟩))}
  | return_sum {s t total} : s.pc t = .summing kCounterShards total →
      Step t s {s with
        pc := Function.update s.pc t .idle, returned := s.returned ++ [unsigned_sum total]}

def initial : State Thread where
  next_slot := 0
  slot _ := none
  slots _ := 0
  pc _ := .idle
  increments := 0
  returned := []
  began _ := (0, [])

def system (Thread : Type*) [DecidableEq Thread] : System (State Thread) Thread := ⟨fun s => s = initial, Step⟩

/-! ### What every run keeps -/

structure Inv (s : State Thread) : Prop where
  /-- No increment is lost. -/
  counted : ∑ i, s.slots i = s.increments
  summing : ∀ t i total, s.pc t = .summing i total → Collect s.slots (s.began t).1 i total
  returned : ∀ x ∈ s.returned, x ≤ s.increments
  began : ∀ t, ∀ x ∈ (s.began t).2, x ≤ (s.began t).1

variable {s s' : State Thread} {t : Thread}

omit [DecidableEq Thread] in
/-- What `unsigned_sum` returns lies between what had been counted and what is. -/
theorem Inv.between (h : Inv s) {total : ℤ} (hpc : s.pc t = .summing kCounterShards total) :
    (s.began t).1 ≤ unsigned_sum total ∧ unsigned_sum total ≤ s.increments := by
  obtain ⟨hlower, hupper⟩ := (h.summing t _ total hpc).result
  rw [h.counted] at hupper
  unfold unsigned_sum
  split <;> omega

theorem inv_step (h : Inv s) (hs : Step t s s') : Inv s' := by
  cases hs with
  | thread_slot => exact ⟨h.counted, h.summing, h.returned, h.began⟩
  | @increment _ _ i hpc hslot =>
    have hgrow : ∀ j, s.slots j ≤ Function.update s.slots i (s.slots i + 1) j := by
      intro j
      rcases eq_or_ne j i with rfl | hne
      · simp
      · simp [hne]
    refine ⟨?_, fun u j total hu => (h.summing u j total hu).grow hgrow,
      fun x hx => (h.returned x hx).trans (Nat.le_succ _), h.began⟩
    have hold := Finset.add_sum_erase Finset.univ s.slots (Finset.mem_univ i)
    have hothers : ∑ j ∈ Finset.univ.erase i, Function.update s.slots i (s.slots i + 1) j =
        ∑ j ∈ Finset.univ.erase i, s.slots j := by
      apply Finset.sum_congr rfl
      intro j hj
      exact Function.update_of_ne (Finset.ne_of_mem_erase hj) ..
    have hcounted := h.counted
    show ∑ j, Function.update s.slots i (s.slots i + 1) j = ((s.increments + 1 : ℕ) : ℤ)
    rw [← Finset.add_sum_erase _ _ (Finset.mem_univ i), hothers, Function.update_self]
    push_cast
    omega
  | sum hpc =>
    refine ⟨h.counted, fun u i total hu => ?_, h.returned, fun u x hx => ?_⟩
    · rcases eq_or_ne u t with rfl | hne
      · simp only [Function.update_self, Pc.summing.injEq] at hu ⊢
        obtain ⟨rfl, rfl⟩ := hu
        exact h.counted ▸ .start s.slots
      · simp only [Function.update_of_ne hne] at hu ⊢
        exact h.summing u i total hu
    · rcases eq_or_ne u t with rfl | hne
      · simp only [Function.update_self] at hx ⊢
        exact h.returned x hx
      · simp only [Function.update_of_ne hne] at hx ⊢
        exact h.began u x hx
  | load hpc hi =>
    refine ⟨h.counted, fun u j total hu => ?_, h.returned, h.began⟩
    rcases eq_or_ne u t with rfl | hne
    · simp only [Function.update_self, Pc.summing.injEq] at hu
      obtain ⟨rfl, rfl⟩ := hu
      exact (h.summing u _ _ hpc).load hi
    · simp only [Function.update_of_ne hne] at hu
      exact h.summing u j total hu
  | return_sum hpc =>
    refine ⟨h.counted, fun u j total hu => ?_, fun x hx => ?_, h.began⟩
    · rcases eq_or_ne u t with rfl | hne
      · simp at hu
      · simp only [Function.update_of_ne hne] at hu
        exact h.summing u j total hu
    · obtain hx | hx := List.mem_append.mp hx
      · exact h.returned x hx
      · obtain rfl := List.mem_singleton.mp hx
        exact (h.between hpc).2

theorem inv (h : Reachable (system Thread) s) : Inv s := by
  apply h.invariant
  · intro _ hi
    obtain rfl := hi
    exact ⟨by simp [initial], nofun, nofun, fun _ => nofun⟩
  · exact fun _ _ _ _ hinv hs => inv_step hinv hs

/-! ### What a report says -/

/-- **A report is between what had been counted when it began and what has been when it is done**, and
not below any report that had been returned when it began. -/
theorem sum_between (h : Reachable (system Thread) s) {total : ℤ} (hpc : s.pc t = .summing kCounterShards total) :
    (s.began t).1 ≤ unsigned_sum total ∧ unsigned_sum total ≤ s.increments ∧
      ∀ x ∈ (s.began t).2, x ≤ unsigned_sum total := by
  obtain ⟨hlower, hupper⟩ := (inv h).between hpc
  exact ⟨hlower, hupper, fun x hx => ((inv h).began t x hx).trans hlower⟩

/-- A call of `sum` that nobody disturbs gets through the slots. -/
theorem sum_ends (h : Reachable (system Thread) s) {i : ℕ} {total : ℤ} (hpc : s.pc t = .summing i total)
    (hi : i ≤ kCounterShards) :
    ∃ s' total', Reachable (system Thread) s' ∧ s'.pc t = .summing kCounterShards total' ∧
      s'.began = s.began ∧ s'.increments = s.increments := by
  induction hk : kCounterShards - i generalizing s i total with
  | zero =>
    obtain rfl : i = kCounterShards := by omega
    exact ⟨s, total, h, hpc, rfl, rfl⟩
  | succ k ih =>
    have hlt : i < kCounterShards := by omega
    have hload : (system Thread).step t s _ := .load hpc hlt
    obtain ⟨s', total', hs', hend⟩ := ih (h.step hload) (Function.update_self ..) hlt (by omega)
    exact ⟨s', total', hs', hend⟩

/-- One thread counts once, and asks. -/
theorem sum_between_one :
    ∃ (s : State Unit) (total : ℤ), Reachable (system Unit) s ∧ s.pc () = .summing kCounterShards total ∧
      unsigned_sum total = 1 := by
  obtain ⟨s₁, h₁, hpc₁, hincrements₁, hbegan₁⟩ : ∃ s, Reachable (system Unit) s ∧
      s.pc () = .summing 0 0 ∧ s.increments = 1 ∧ (s.began ()).1 = 1 := by
    have h : Reachable (system Unit) initial := .initial rfl
    have h := h.step (Step.thread_slot (t := ()) rfl rfl)
    have h := h.step (Step.increment (t := ()) (i := ⟨0, by decide⟩) rfl rfl)
    exact ⟨_, h.step (Step.sum (t := ()) rfl), rfl, rfl, rfl⟩
  obtain ⟨s, total, h, hpc, hbegan, hincrements⟩ := sum_ends h₁ hpc₁ (Nat.zero_le _)
  obtain ⟨hlower, hupper, -⟩ := sum_between h hpc
  rw [hbegan, hbegan₁] at hlower
  rw [hincrements, hincrements₁] at hupper
  exact ⟨s, total, h, hpc, le_antisymm hupper hlower⟩

end Thunderbolt.Runtime.ShardedCounter
