import Thunderbolt.Concurrent.Bell
import Thunderbolt.Scheduler.StealingProofs

/-! The destructor of `ThunderboltRuntime`.

It stores `false` to `running_` and notifies all under `sleep_mutex_`. A worker reads `running_` under
that mutex before it looks for work and blocks, so after the notification nobody blocks. -/
namespace Thunderbolt.Scheduler
open Concurrent Executor

namespace Parking
variable {Worker Thread γ : Type*} [DecidableEq Worker] [DecidableEq Thread] {look : γ → Verdict γ} {start : γ}
  {a : Act Worker Thread} {s s' : State Worker Thread γ}

/-- It has read `running_` as true, in its critical section. -/
def Sleeper.Drowsy : Sleeper γ → Prop
  | .checking _ | .blocking => True
  | _ => False

/-- The flag is `running_` stored, the bell is `notify_all`. -/
def sleepers (Worker Thread γ : Type*) : Sleepers (State Worker Thread γ) Worker where
  flag s := s.running = false
  lock := State.mutex
  drowsy s w := (s.sleeper w).Drowsy
  asleep s w := s.sleeper w = .blocked

/-- A worker keeps its place, or is notified, in a step that is not its own. -/
theorem sleeper_step (hs : Step look start a s s') {w : Worker} (hne : a ≠ .sleeper w) :
    s'.sleeper w = s.sleeper w ∨ s'.sleeper w = .locking ∨ s'.sleeper w = .notified := by
  rcases eq_or_ne a (.park w) with rfl | hpark
  · cases hs
    exact .inr (.inl (Function.update_self ..))
  · exact (sleeper_other hs hpark hne).imp_right fun h => .inr h.2

theorem keeps (hs : Step look start a s s') : (sleepers Worker Thread γ).Keeps s s' where
  flag hflag := by cases hs <;> first | exact hflag | rfl
  drowsy w hdrowsy := by
    have hw : (s'.sleeper w).Drowsy := hdrowsy
    clear hdrowsy
    rcases eq_or_ne a (.sleeper w) with rfl | hne
    · have hold : ∀ {p : Sleeper γ}, s.sleeper w = p → p.Drowsy → (sleepers Worker Thread γ).drowsy s w :=
        fun hp hdrowsy => by
          show (s.sleeper w).Drowsy
          rwa [hp]
      cases hs
      case running hrun _ => exact .inr fun hstopped => by cases hrun.symm.trans hstopped
      case next hpc => exact .inl (hold hpc trivial)
      case nothing hpc => exact .inl (hold hpc trivial)
      all_goals simp [State.sleeperAt, Sleeper.Drowsy] at hw
    · obtain hsame | hsame | hsame := sleeper_step hs hne
      · rw [hsame] at hw
        exact .inl hw
      all_goals
        rw [hsame] at hw
        exact hw.elim
  asleep w hasleep := by
    have hw : s'.sleeper w = .blocked := hasleep
    clear hasleep
    rcases eq_or_ne a (.sleeper w) with rfl | hne
    · have hold : s.sleeper w = .blocking → (sleepers Worker Thread γ).drowsy s w := fun hp => by
        show (s.sleeper w).Drowsy
        rw [hp]
        trivial
      cases hs
      case block hpc => exact .inr (hold hpc)
      all_goals simp [State.sleeperAt] at hw
    · obtain hsame | hsame | hsame := sleeper_step hs hne
      · exact .inl (hsame.symm.trans hw)
      all_goals cases hsame.symm.trans hw

/-- `notify_all`. -/
theorem rung (hmutex : Exclusive s) (hstopped : s.running = false) (hs : Step look start .stop s s') :
    (sleepers Worker Thread γ).Rung s' := by
  have hkeeps := keeps hs
  cases hs
  case stop hrun => cases hstopped.symm.trans hrun
  case notifyAll _ hfree =>
    refine Sleepers.rings (fun w hw => hmutex w ?_) hfree hkeeps hstopped fun w hw => ?_
    · have hw : (s.sleeper w).Drowsy := hw
      show (s.sleeper w).holds = true
      cases hp : s.sleeper w <;> rw [hp] at hw <;> first | rfl | exact hw.elim
    · have hw : _ = Sleeper.blocked := hw
      dsimp only at hw
      split at hw
      · cases hw
      · next hne => exact hne hw

end Parking

namespace Stealing
variable {n m : ℕ} {External : Type} [DecidableEq External] {cfg : RuntimeConfig}

/-- A worker at the head of its loop stays there, or leaves the loop, once `running_` is false. -/
theorem looking_step {a : Act n External} {s s' : State n External} (hs : Step cfg a s s')
    (hstopped : s.park.running = false) {w : Fin n} {k : ℕ} (hw : s.work w = .looking k) :
    s'.work w = .looking k ∨ s'.work w = .exited := by
  rcases eq_or_ne a (.work w) with rfl | hne
  · cases hs
    case stop => exact .inr (Function.update_self ..)
    case loop =>
      have hrun := ‹s.park.running = true›
      cases hstopped.symm.trans hrun
    case push =>
      have hpushes := ‹(s.work w).pushes = _›
      rw [hw] at hpushes
      cases hpushes
    all_goals
      have hpc := ‹s.work w = _›
      cases hw.symm.trans hpc
  · exact .inl ((work_other hs hne).trans hw)

variable {s₀ s₁ s : State (m + 1) External}

/-- **The destructor wakes everybody**: after `notify_all` no worker is blocked, now or later, and who comes to
the head of its loop takes no other task. -/
theorem wakes_everybody (h₀ : Reachable (system cfg m External) s₀) (hstopped : s₀.park.running = false)
    (hring : Step cfg (.park .stop) s₀ s₁) (h : Reachable ((system cfg m External).startingAt s₁) s) :
    (∀ w, s.park.sleeper w ≠ .blocked) ∧
      ∀ a s' w k, Step cfg a s s' → s.work w = .looking k → s'.work w = .looking k ∨ s'.work w = .exited := by
  have hkeeps : ∀ {a} {x x' : State (m + 1) External}, Step cfg a x x' →
      ((Parking.sleepers _ _ _).comap State.park).Keeps x x' := by
    intro a x x' hs
    obtain hsame | ⟨b, hpark⟩ := park_step hs
    · exact .comap (hsame ▸ .refl _ _)
    · exact .comap (Parking.keeps hpark)
  have hinv : Inv cfg s₀ := h₀.invariant (P := Inv cfg) (fun _ hi => inv_initial hi)
    fun _ _ _ _ hi hs => inv_step hi hs
  have hrung : ((Parking.sleepers _ _ _).comap State.park).Rung s₁ := by
    cases hring
    case parking hpark => exact .comap (Parking.rung hinv.exclusive hstopped hpark)
  have hrung := hrung.run (fun _ _ _ => hkeeps) h
  exact ⟨hrung.asleep, fun a s' w k hs hw => looking_step hs hrung.flag hw⟩

open Single in
/-- The worker sleeps when the bell rings. -/
theorem wakes_everybody_asleep : ∃ s₀ s : State 1 Unit, Reachable (system config 0 Unit) s₀ ∧
    s₀.park.sleeper 0 = .blocked ∧ s₀.park.running = false ∧ Step config (.park .stop) s₀ s ∧
      ∀ w, s.park.sleeper w ≠ .blocked := by
  have h : Reachable (system config 0 Unit) asleep := sleeping
  have h := h.step (l := Act.park .stop) (.parking (by simp) (by simp) (.stop rfl))
  have hring : Step config (.park .stop) ((asleep : State 1 Unit).parkAt {asleep.park with running := false}) _ :=
    .parking (by simp) (by simp) (.notifyAll rfl rfl)
  exact ⟨_, _, h, rfl, rfl, hring, (wakes_everybody h rfl hring (.initial rfl)).1⟩

end Stealing

end Thunderbolt.Scheduler
