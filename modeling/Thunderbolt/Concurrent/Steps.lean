import Thunderbolt.Concurrent.System

/-! How many steps a thread makes of its own.

Others may make any number of theirs in between. What its own steps lower and theirs do not raise bounds how
many there are, as long as something holds (`Steps.le_rank`). -/
namespace Thunderbolt.Concurrent

variable {σ ι : Type*} {S : System σ ι} {Own : ι → Prop} {P : σ → Prop} {s s' : σ} {k : ℕ}

/-- A run with `k` steps of one's own; `P` holds before each step. -/
inductive Steps (S : System σ ι) (Own : ι → Prop) (P : σ → Prop) (s : σ) : ℕ → σ → Prop where
  | none : Steps S Own P s 0 s
  | own {l : ι} {k : ℕ} {s' s'' : σ} :
      Steps S Own P s k s' → P s' → S.step l s' s'' → Own l → Steps S Own P s (k + 1) s''
  | other {l : ι} {k : ℕ} {s' s'' : σ} :
      Steps S Own P s k s' → P s' → S.step l s' s'' → ¬Own l → Steps S Own P s k s''

theorem Steps.reachable (h : Steps S Own P s k s') (hs : Reachable S s) : Reachable S s' := by
  induction h with
  | none => exact hs
  | own _ _ hstep _ ih | other _ _ hstep _ ih => exact ih.step hstep

theorem Steps.trans {j : ℕ} {s'' : σ} (h : Steps S Own P s j s') (h' : Steps S Own P s' k s'') :
    Steps S Own P s (j + k) s'' := by
  induction h' with
  | none => exact h
  | own _ hP hstep hl ih => exact ih.own hP hstep hl
  | other _ hP hstep hl ih => exact ih.other hP hstep hl

theorem Steps.mono {Q : σ → Prop} (hPQ : ∀ s, P s → Q s) (h : Steps S Own P s k s') : Steps S Own Q s k s' := by
  induction h with
  | none => exact .none
  | own _ hP hstep hl ih => exact ih.own (hPQ _ hP) hstep hl
  | other _ hP hstep hl ih => exact ih.other (hPQ _ hP) hstep hl

theorem Steps.of_restrict {C : ι → σ → Prop} (h : Steps (S.restrict C) Own P s k s') : Steps S Own P s k s' := by
  induction h with
  | none => exact .none
  | own _ hP hstep hl ih => exact ih.own hP hstep.1 hl
  | other _ hP hstep hl ih => exact ih.other hP hstep.1 hl

theorem Steps.le_rank {rank : σ → ℕ}
    (hown : ∀ l s s', Reachable S s → P s → S.step l s s' → Own l → rank s' < rank s)
    (hother : ∀ l s s', Reachable S s → P s → S.step l s s' → ¬Own l → rank s' ≤ rank s)
    (h : Steps S Own P s k s') (hs : Reachable S s) : k + rank s' ≤ rank s := by
  induction h with
  | none => omega
  | own h hP hstep hl ih =>
    have hlt := hown _ _ _ (h.reachable hs) hP hstep hl
    omega
  | other h hP hstep hl ih =>
    have hle := hother _ _ _ (h.reachable hs) hP hstep hl
    omega

end Thunderbolt.Concurrent
