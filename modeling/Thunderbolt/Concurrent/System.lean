import Mathlib.Data.Nat.Init
import Mathlib.Logic.Relation
import Mathlib.Order.Basic

/-! Labelled transition systems and what holds over their runs.

A `System` is a set of initial states and a labelled step relation. `Reachable`
closes the one under the other; `Reachable.invariant` is the induction every
safety result uses, and `restrict` keeps the steps that meet a condition. -/
namespace Thunderbolt.Concurrent

/-- Initial states and labelled steps. -/
structure System (σ ι : Type*) where
  initial : σ → Prop
  step : ι → σ → σ → Prop

variable {σ ι : Type*} {S : System σ ι}

/-- The states some run reaches. -/
inductive Reachable (S : System σ ι) : σ → Prop where
  | initial {s : σ} : S.initial s → Reachable S s
  | step {l : ι} {s s' : σ} : Reachable S s → S.step l s s' → Reachable S s'

/-- What holds initially and survives every step out of a reachable state holds
of every reachable state. -/
theorem Reachable.invariant {P : σ → Prop} (hinit : ∀ s, S.initial s → P s)
    (hstep : ∀ l s s', Reachable S s → P s → S.step l s s' → P s') {s : σ}
    (h : Reachable S s) : P s := by
  induction h with
  | initial hi => exact hinit _ hi
  | step hr hs ih => exact hstep _ _ _ hr ih hs

/-- A run, seen through `f`, is a run of another system, where each step is one of that system or changes
nothing there. -/
theorem Reachable.map {τ κ : Type*} {T : System τ κ} (f : σ → τ) (hinit : ∀ s, S.initial s → T.initial (f s))
    (hstep : ∀ l s s', S.step l s s' → f s' = f s ∨ ∃ k, T.step k (f s) (f s')) {s : σ} (h : Reachable S s) :
    Reachable T (f s) := by
  induction h with
  | initial hi => exact .initial (hinit _ hi)
  | step _ hs ih =>
    obtain heq | ⟨k, hk⟩ := hstep _ _ _ hs
    · exact heq ▸ ih
    · exact ih.step hk

/-! ### Runs whose steps all meet a condition -/

/-- The same system with only the steps `C` allows, judged on the label and the
state before the step. -/
def System.restrict (S : System σ ι) (C : ι → σ → Prop) : System σ ι where
  initial := S.initial
  step l s s' := S.step l s s' ∧ C l s

/-- A restricted run is a run. -/
theorem Reachable.of_restrict {C : ι → σ → Prop} {s : σ} (h : Reachable (S.restrict C) s) :
    Reachable S s := by
  induction h with
  | initial hi => exact .initial hi
  | step _ hs ih => exact .step ih hs.1

/-- A weaker condition allows more runs. -/
theorem Reachable.restrict_mono {C D : ι → σ → Prop} (hCD : ∀ l s, C l s → D l s) {s : σ}
    (h : Reachable (S.restrict C) s) : Reachable (S.restrict D) s := by
  induction h with
  | initial hi => exact .initial hi
  | step _ hs ih => exact ih.step ⟨hs.1, hCD _ _ hs.2⟩

/-! ### What happens after a given state -/

/-- The same steps, from `s₀` on. -/
def System.startingAt (S : System σ ι) (s₀ : σ) : System σ ι := ⟨fun s => s = s₀, S.step⟩

/-- A run goes on after any of its states. -/
theorem Reachable.trans {s₀ s : σ} (h₀ : Reachable S s₀) (h : Reachable (S.startingAt s₀) s) :
    Reachable S s := by
  induction h with
  | initial hi => exact hi ▸ h₀
  | step _ hs ih => exact ih.step hs

/-- If as long as `P` does not hold some step brings it nearer, a state where it holds
can be reached. -/
theorem Reachable.exists_of_measure {P : σ → Prop} (μ : σ → ℕ)
    (hstep : ∀ s, Reachable S s → ¬P s → ∃ l s', S.step l s s' ∧ μ s' < μ s) {s : σ}
    (h : Reachable S s) : ∃ s', Reachable (S.startingAt s) s' ∧ P s' := by
  induction hμ : μ s using Nat.strong_induction_on generalizing s with
  | _ k ih =>
    by_cases hP : P s
    · exact ⟨s, .initial rfl, hP⟩
    · obtain ⟨l, s₁, hs, hlt⟩ := hstep s h hP
      obtain ⟨s', hs', hP'⟩ := ih _ (hμ ▸ hlt) (h.step hs) rfl
      have hfirst : Reachable (S.startingAt s) s₁ := .step (.initial rfl) hs
      exact ⟨s', hfirst.trans hs', hP'⟩

end Thunderbolt.Concurrent
