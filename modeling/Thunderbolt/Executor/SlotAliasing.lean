import Thunderbolt.Executor.AbpDequeProofs

/-! Whether a thief reads the slot that the owner writes.

It may: when others have taken the element it is after, the owner goes round the
buffer and writes the same slot. Then `top_` has passed the thief's index for good, and its
compare-exchange fails, so that what it read is never used. -/
namespace Thunderbolt.Executor.AbpDeque
open Concurrent

variable {Tid α : Type*} [DecidableEq Tid] {k : ℕ} {s s' : State Tid α} {t : Tid} {i b : ℤ} {v : α}

omit [DecidableEq Tid] in
/-- As long as the thief could still win, its slot is not the one written. -/
theorem slot_ne_of_top (hb : Bounds k s) (hthief : s.thief t = .stealRead i)
    (howner : s.owner = .pushWrite v b) (htop : s.top = i) : slot k i ≠ slot k b := by
  have hread := hb.thief t
  have hwrite := hb.owner
  rw [hthief] at hread
  rw [howner] at hwrite
  obtain ⟨hle, hstealable⟩ := hread
  obtain ⟨hbottom, hguard⟩ := hwrite
  have hlt : i < s.bottom := by
    have := hstealable htop
    rwa [State.stealable, howner] at this
  have hnonneg := hb.nonneg
  exact slot_ne (by omega) (by omega) (by omega)

/-- `top_` never comes back. -/
theorem top_mono (h : Reachable (system Tid α k) s)
    (h' : Reachable ((system Tid α k).startingAt s) s') : s.top ≤ s'.top := by
  induction h' with
  | initial hi => exact hi ▸ le_rfl
  | step hr hstep ih => exact ih.trans (top_step (bounds_reachable (h.trans hr)) hstep)

/-- **A thief about to read and the owner about to write are at different slots**, or `top_` has
passed the thief's index, and its compare-exchange fails whatever happens until then. -/
theorem slots_apart (h : Reachable (system Tid α k) s) (hthief : s.thief t = .stealRead i)
    (howner : s.owner = .pushWrite v b) :
    slot k i ≠ slot k b ∨ i < s.top ∧ ∀ s', Reachable ((system Tid α k).startingAt s) s' →
      ∀ out, s'.thief t = .stealCas i out → s'.top ≠ i := by
  have hb := bounds_reachable h
  by_cases htop : s.top = i
  · exact .inl (slot_ne_of_top hb hthief howner htop)
  · have hpassed : i < s.top := by
      have hread := hb.thief t
      rw [hthief] at hread
      exact lt_of_le_of_ne hread.1 (Ne.symm htop)
    refine .inr ⟨hpassed, fun s' hs' out _ => ?_⟩
    exact (hpassed.trans_le (top_mono h hs')).ne'

/-- One slot: a thief is about to read it, another has taken the element, and the owner is about to
write the next one. -/
theorem aliased : ∃ s : State (Fin 2) ℕ, Reachable (system (Fin 2) ℕ 0) s ∧
    s.thief 0 = .stealRead 0 ∧ s.owner = .pushWrite 20 1 := by
  have h : Reachable (system (Fin 2) ℕ 0)
      ⟨0, 0, fun _ => 0, .idle, fun _ => .idle, [], fun _ => 0, []⟩ :=
    .initial ⟨rfl, rfl, rfl, fun _ => rfl, rfl, rfl⟩
  have h := h.step (l := Mover.owner) (.push 10 rfl)
  have h := h.step (l := Mover.owner) (.pushTop rfl (by decide))
  have h := h.step (l := Mover.owner) (.pushWrite rfl)
  have h := h.step (l := Mover.owner) (.pushPublish rfl)
  have h := h.step (l := Mover.thief 0) (.steal rfl)
  have h := h.step (l := Mover.thief 0) (.stealSome rfl (by decide))
  have h := h.step (l := Mover.thief 1) (.steal rfl)
  have h := h.step (l := Mover.thief 1) (.stealSome rfl (by decide))
  have h := h.step (l := Mover.thief 1) (.stealRead rfl)
  have h := h.step (l := Mover.thief 1) (.stealWon rfl rfl)
  have h := h.step (l := Mover.owner) (.push 20 rfl)
  have h := h.step (l := Mover.owner) (.pushTop rfl (by decide))
  exact ⟨_, h, rfl, rfl⟩

theorem slots_apart_passed : ∃ s : State (Fin 2) ℕ, Reachable (system (Fin 2) ℕ 0) s ∧
    s.owner = .pushWrite 20 1 ∧ (slot 0 0 ≠ slot 0 1 ∨ 0 < s.top ∧ ∀ s', Reachable ((system (Fin 2) ℕ 0).startingAt s) s' →
      ∀ out, s'.thief 0 = .stealCas 0 out → s'.top ≠ 0) := by
  obtain ⟨s, h, hthief, howner⟩ := aliased
  exact ⟨s, h, howner, slots_apart h hthief howner⟩

theorem slots_alias : ¬∀ s : State (Fin 2) ℕ, Reachable (system (Fin 2) ℕ 0) s →
    ∀ t i v b, s.thief t = .stealRead i → s.owner = .pushWrite v b → slot 0 i ≠ slot 0 b := by
  intro hall
  obtain ⟨s, h, hthief, howner⟩ := aliased
  exact hall s h 0 0 20 1 hthief howner (by decide)

end Thunderbolt.Executor.AbpDeque
