import Thunderbolt.Runtime.OnScheduler
import Thunderbolt.Runtime.Refinement

/-! What threads that wait and help show.

A step shows what the runtime's part of it shows. Which thread makes it, and on top of what, is how the
threads go about it: what they show, the runtime may show (`traced`). -/
namespace Thunderbolt.Runtime.HelpOnWait
open Concurrent Lifecycle

variable {Thread Call : Type}

/-- What the step is to the runtime. -/
def Act.label (s : State Thread Call) : Act Thread Call → Option (Lifecycle.Act Call)
  | .step θ | .exhausted θ => (s.stack θ).head?.map fun f => .step f.call
  | .submit θ dependencies => (s.stack θ).head?.map fun f => .submit f.call dependencies
  | .call _ c dependencies => some (.submit c dependencies)
  | .wait _ _ _ => none
  | .help _ c => some (.step c)

/-- What the step shows. -/
def event (s s' : State Thread Call) (a : Act Thread Call) : Option (Executor.Event ℕ) :=
  (a.label s).bind (Lifecycle.event s.runtime s'.runtime)

variable [DecidableEq Thread] [DecidableEq Call]

/-- A step, when no slot has been released `2^32` times. -/
def Shows (cfg : PoolConfig) (e : Option (Executor.Event ℕ)) (s s' : State Thread Call) : Prop :=
  ∃ a, Step cfg a s s' ∧ a.Bounded s ∧ (∀ i, (s'.runtime.slots i).releases < word) ∧ e = event s s' a

variable {cfg : PoolConfig} {a : Act Thread Call} {s s' : State Thread Call}

/-- The runtime makes a step that shows the same, or rests where nothing is shown. -/
theorem shows_step (h : Inv s) (hs : Step cfg a s s') (hbound : a.Bounded s) :
    s'.runtime = s.runtime ∧ event s s' a = none ∨
      ∃ b, Lifecycle.Step cfg b s.runtime s'.runtime ∧ b.Sized ∧
        event s s' a = Lifecycle.event s.runtime s'.runtime b := by
  have hstep : ∀ {θ f rest}, s.stack θ = f :: rest → Lifecycle.Step cfg (.step f.call) s.runtime s'.runtime →
      ∃ b, Lifecycle.Step cfg b s.runtime s'.runtime ∧ b.Sized ∧
        event s s' (.step θ) = Lifecycle.event s.runtime s'.runtime b := by
    intro θ f rest hstack hs
    exact ⟨_, hs, trivial, by simp [event, Act.label, hstack]⟩
  cases hs with
  | step hstack _ _ hs | poll hstack _ _ hs | polls hstack _ _ _ hs | waited hstack _ _ hs =>
    exact .inr (hstep hstack hs)
  | returns hstack _ _ _ hs => exact .inr (hstep hstack (by rwa [hand_runtime]))
  | exhausted hstack hpc =>
    exact .inr ⟨_, .exhausted hpc, trivial, by simp [event, Act.label, hstack]⟩
  | submit hstack hs =>
    exact .inr ⟨_, hs, hbound.2.1, by simp [event, Act.label, hstack, State.after]⟩
  | call _ _ hs => exact .inr ⟨_, hs, hbound.2.1, rfl⟩
  | wait | waitOutside => exact .inl ⟨rfl, rfl⟩
  | @waited_all _ θ f rest hstack htarget =>
    have hidle := h.wait_all θ f (hstack ▸ List.mem_cons_self) htarget
    exact .inl ⟨rfl, by simp [event, Act.label, hstack, Lifecycle.event, State.stackAt, hidle]⟩
  | help _ _ _ hs => exact .inr ⟨_, hs, trivial, rfl⟩

variable {events : List (Executor.Event ℕ)}

theorem traced (base : Thread ↪ Call) (h : Trace (Shows cfg) (initial base) events s) :
    Trace (Lifecycle.Shows cfg) Lifecycle.initial events s.runtime := by
  have hsim : ∃ x, (x = s.runtime ∧ Inv s ∧ Reachable (regular Call cfg) s.runtime) ∧
      Trace (Lifecycle.Shows cfg) Lifecycle.initial events x :=
    h.simulate (R := fun s x => x = s.runtime ∧ Inv s ∧ Reachable (regular Call cfg) s.runtime) ?_
      ⟨rfl, .initial base, .initial rfl⟩
  · obtain ⟨_, ⟨rfl, _⟩, htrace⟩ := hsim
    exact htrace
  · rintro _ s s' _ ⟨rfl, hinv, hreach⟩ ⟨a, hs, hbound, hwin, rfl⟩
    obtain ⟨_, _, _, _, m⟩ := hinv.turn hreach hs hbound
    refine ⟨_, ⟨rfl, m.inv hinv, m.reachable hreach⟩, ?_⟩
    obtain ⟨hsame, hevent⟩ | ⟨b, hstep, hsized, hevent⟩ := shows_step hinv hs hbound
    · rw [hevent, hsame]
      exact .nil
    · rw [hevent]
      exact .single ⟨b, hstep, hsized, hwin, rfl⟩

/-- Threads that are part of a system release slots, and take no release back. -/
theorem releases_le {o : Option (Act Thread Call)} (hinv : Inv s)
    (h : s' = s ∧ o = none ∨ ∃ b, o = some b ∧ Step cfg b s s') (hbound : ∀ b, o = some b → b.Bounded s) (i : ℕ) :
    (s.runtime.slots i).releases ≤ (s'.runtime.slots i).releases := by
  obtain ⟨rfl, _⟩ | ⟨b, hb, hs⟩ := h
  · exact le_rfl
  · obtain ⟨hsame, _⟩ | ⟨_, hstep, _⟩ := shows_step hinv hs (hbound b hb)
    · rw [hsame]
    · exact Lifecycle.Inv.releases_le hstep i

/-- Threads that are part of a system show what they do in its step. -/
theorem shown {o : Option (Act Thread Call)}
    (h : s' = s ∧ o = none ∨ ∃ b, o = some b ∧ Step cfg b s s') (hbound : ∀ b, o = some b → b.Bounded s)
    (hwin : ∀ i, (s'.runtime.slots i).releases < word) : Trace (Shows cfg) s (o.bind (event s s')).toList s' := by
  obtain ⟨rfl, rfl⟩ | ⟨b, rfl, hstep⟩ := h
  · exact .nil
  · exact .single ⟨b, hstep, hbound b rfl, hwin, rfl⟩

/-- What the threads show, an executor may show. -/
theorem lawful_threads (base : Thread ↪ Call) (h : Trace (Shows cfg) (initial base) events s) :
    (∃ x, Matches s.runtime x ∧ Trace Executor.Step Executor.initial events x) ∧ Executor.Lawful events := by
  obtain ⟨x, m, htrace⟩ := simulated (traced base h)
  exact ⟨⟨x, m, htrace⟩, (Executor.lawful htrace).1⟩

namespace Single

theorem Executed.window {s : State (Fin 1 ⊕ Unit) (Fin 1 ⊕ Unit)} (h : Executed s)
    (hreach : Reachable (sized (Fin 1 ⊕ Unit) singleSlot) s.runtime) (i : ℕ) : (s.runtime.slots i).releases < word := by
  obtain rfl | hpos := Nat.eq_zero_or_pos i
  · rw [h.releases]
    decide
  · rw [releases_beyond hreach i hpos]
    decide

end Single

end Thunderbolt.Runtime.HelpOnWait
