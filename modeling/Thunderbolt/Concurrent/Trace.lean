import Mathlib.Data.List.Basic
import Thunderbolt.Concurrent.System

/-! What a run shows, and simulation.

A step shows an event or nothing. One system simulates another if whatever a step shows, some
steps show too: then whatever a run shows, a run of the other shows (`Trace.simulate`). -/
namespace Thunderbolt.Concurrent

variable {σ τ ε : Type*} {step : Option ε → σ → σ → Prop}

/-- A run, and the events it shows. -/
inductive Trace (step : Option ε → σ → σ → Prop) : σ → List ε → σ → Prop where
  | nil {s : σ} : Trace step s [] s
  | cons {e : Option ε} {s s' s'' : σ} {events : List ε} :
      step e s s' → Trace step s' events s'' → Trace step s (e.toList ++ events) s''

theorem Trace.append {s s' s'' : σ} {a b : List ε} (h : Trace step s a s') (h' : Trace step s' b s'') :
    Trace step s (a ++ b) s'' := by
  induction h with
  | nil => exact h'
  | cons hstep _ ih =>
    rw [List.append_assoc]
    exact .cons hstep (ih h')

theorem Trace.single {e : Option ε} {s s' : σ} (h : step e s s') : Trace step s e.toList s' := by
  have hone : Trace step s (e.toList ++ []) s' := .cons h .nil
  rwa [List.append_nil] at hone

/-- A step that shows nothing. -/
theorem Trace.silent {s s' s'' : σ} {events : List ε} (h : step none s s') (h' : Trace step s' events s'') :
    Trace step s events s'' :=
  .cons h h'

/-- A run shows something if each of its steps does, where a condition holds that, once broken, stays so. -/
theorem Reachable.trace {ι : Type*} {S : System σ ι} {W : σ → Prop}
    (hback : ∀ l s s', Reachable S s → S.step l s s' → W s' → W s)
    (hshow : ∀ l s s', S.step l s s' → W s' → ∃ e, step e s s') {s : σ} (h : Reachable S s) (hW : W s) :
    ∃ s₀ events, S.initial s₀ ∧ Trace step s₀ events s := by
  induction h with
  | initial hi => exact ⟨_, [], hi, .nil⟩
  | step hr hs ih =>
    obtain ⟨s₀, events, hi, htrace⟩ := ih (hback _ _ _ hr hs hW)
    obtain ⟨e, he⟩ := hshow _ _ _ hs hW
    exact ⟨s₀, _, hi, htrace.append (.single he)⟩

/-- What holds of the start, and survives each step with what it shows, holds of the end. -/
theorem Trace.invariant {P : List ε → σ → Prop}
    (hstep : ∀ before e s s', P before s → step e s s' → P (before ++ e.toList) s') {s s' : σ} {events : List ε}
    (h : Trace step s events s') (before : List ε) (hs : P before s) : P (before ++ events) s' := by
  induction h generalizing before with
  | nil => rwa [List.append_nil]
  | cons hfirst _ ih =>
    rw [← List.append_assoc]
    exact ih _ (hstep _ _ _ _ hs hfirst)

/-- **Simulation**: if each step of the one is matched by steps of the other, so is each run. -/
theorem Trace.simulate {step' : Option ε → τ → τ → Prop} {R : σ → τ → Prop}
    (hstep : ∀ e s s' t, R s t → step e s s' → ∃ t', R s' t' ∧ Trace step' t e.toList t') {s s' : σ}
    {events : List ε} (h : Trace step s events s') {t : τ} (ht : R s t) :
    ∃ t', R s' t' ∧ Trace step' t events t' := by
  induction h generalizing t with
  | nil => exact ⟨t, ht, .nil⟩
  | cons hs _ ih =>
    obtain ⟨t₁, ht₁, hfirst⟩ := hstep _ _ _ _ ht hs
    obtain ⟨t', ht', hrest⟩ := ih ht₁
    exact ⟨t', ht', hfirst.append hrest⟩

/-- What a part of the state shows. -/
theorem Trace.map {step' : Option ε → τ → τ → Prop} {f : σ → τ}
    (hstep : ∀ e s s', step e s s' → Trace step' (f s) e.toList (f s')) {s s' : σ} {events : List ε}
    (h : Trace step s events s') : Trace step' (f s) events (f s') := by
  have hpart : ∃ t, f s' = t ∧ Trace step' (f s) events t :=
    h.simulate (fun e s s' t ht hs => ⟨f s', rfl, ht ▸ hstep e s s' hs⟩) rfl
  obtain ⟨_, rfl, htrace⟩ := hpart
  exact htrace

end Thunderbolt.Concurrent
