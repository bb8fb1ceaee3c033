import Thunderbolt.Concurrent.Trace
import Thunderbolt.Executor.AbpDequeProofs
import Thunderbolt.Scheduler.Stealing

/-! `pop_local` with and without the probe of `kOptSkipEmptyDeques`.

One call of `pop_local`, on any five deques, while thieves go about their steals. What a run
shows are the steps of the thieves. Where the probe finds a deque empty, the pop that is skipped
could have run at that moment, with no thief in between, and would have found the same. -/
namespace Thunderbolt.Scheduler.PopLocal
open Concurrent Executor Stealing

/-- Where the call stands. -/
inductive Pc where
  /-- These priorities are left to look at. -/
  | scanning (rest : List TaskPriority)
  /-- `empty_hint` has read `bottom_`. -/
  | probing (p : TaskPriority) (bottom : ℤ) (rest : List TaskPriority)
  /-- Inside `pop`. -/
  | popping (p : TaskPriority) (rest : List TaskPriority)
  | returned (r : Option TaskHandle)

structure State (Tid : Type*) where
  deques : TaskPriority → AbpDeque.State Tid TaskHandle
  pop_index : ℕ
  pc : Pc

/-- A step of a thief: where it goes on, and what is then `top_`. -/
structure Event (Tid : Type*) where
  priority : TaskPriority
  thief : Tid
  goes : AbpDeque.ThiefPc TaskHandle
  top : ℤ

variable {Tid : Type*} [DecidableEq Tid]

namespace State

def pcAt (s : State Tid) (p : Pc) : State Tid := {s with pc := p}

def dequeAt (s : State Tid) (p : TaskPriority) (d : AbpDeque.State Tid TaskHandle) : State Tid :=
  {s with deques := Function.update s.deques p d}

omit [DecidableEq Tid] in
@[simp] theorem dequeAt_self (s : State Tid) (p : TaskPriority) (d : AbpDeque.State Tid TaskHandle) :
    (s.dequeAt p d).deques p = d :=
  Function.update_self ..

omit [DecidableEq Tid] in
theorem dequeAt_of_ne {s : State Tid} {p q : TaskPriority} {d : AbpDeque.State Tid TaskHandle}
    (h : q ≠ p) : (s.dequeAt p d).deques q = s.deques q :=
  Function.update_of_ne h ..

omit [DecidableEq Tid] in
@[simp] theorem dequeAt_dequeAt (s : State Tid) (p : TaskPriority) (d d' : AbpDeque.State Tid TaskHandle) :
    (s.dequeAt p d).dequeAt p d' = s.dequeAt p d' := by
  simp [dequeAt]

omit [DecidableEq Tid] in
theorem dequeAt_deques (s : State Tid) (p : TaskPriority) : s.dequeAt p (s.deques p) = s := by
  simp [dequeAt]

end State

inductive Step (cfg : RuntimeConfig) : Option (Event Tid) → State Tid → State Tid → Prop where
  | probe {s : State Tid} {p : TaskPriority} {rest : List TaskPriority} :
      s.pc = .scanning (p :: rest) → cfg.skipEmptyDeques = true →
      Step cfg none s (s.pcAt (.probing p (s.deques p).bottom rest))
  | probeEmpty {s : State Tid} {p : TaskPriority} {b : ℤ} {rest : List TaskPriority} :
      s.pc = .probing p b rest → ¬b - (s.deques p).top > 0 → Step cfg none s (s.pcAt (.scanning rest))
  | probeSome {s : State Tid} {p : TaskPriority} {b : ℤ} {rest : List TaskPriority} :
      s.pc = .probing p b rest → b - (s.deques p).top > 0 → Step cfg none s (s.pcAt (.popping p rest))
  | unprobed {s : State Tid} {p : TaskPriority} {rest : List TaskPriority} :
      s.pc = .scanning (p :: rest) → cfg.skipEmptyDeques = false →
      Step cfg none s (s.pcAt (.popping p rest))
  | pop {s : State Tid} {p : TaskPriority} {rest : List TaskPriority}
      {d : AbpDeque.State Tid TaskHandle} : s.pc = .popping p rest →
      AbpDeque.Step cfg.capacityBits .owner (s.deques p) d → InPop d.owner →
      Step cfg none s (s.dequeAt p d)
  | popTook {s : State Tid} {p : TaskPriority} {rest : List TaskPriority}
      {d : AbpDeque.State Tid TaskHandle} {r : AbpDeque.Return TaskHandle} : s.pc = .popping p rest →
      AbpDeque.Step cfg.capacityBits .owner (s.deques p) d → d.owner = .idle →
      d.returned = (s.deques p).returned ++ [r] →
      Step cfg none s {(s.dequeAt p d).pcAt (.returned (some r.value)) with pop_index := s.pop_index + 1}
  | popMiss {s : State Tid} {p : TaskPriority} {rest : List TaskPriority}
      {d : AbpDeque.State Tid TaskHandle} : s.pc = .popping p rest →
      AbpDeque.Step cfg.capacityBits .owner (s.deques p) d → d.owner = .idle →
      d.returned = (s.deques p).returned →
      Step cfg none s ((s.dequeAt p d).pcAt (.scanning rest))
  /-- Nothing in any of the five. -/
  | miss {s : State Tid} : s.pc = .scanning [] → Step cfg none s (s.pcAt (.returned none))
  | thief {s : State Tid} {p : TaskPriority} {t : Tid} {d : AbpDeque.State Tid TaskHandle} :
      AbpDeque.Step cfg.capacityBits (.thief t) (s.deques p) d →
      Step cfg (some ⟨p, t, d.thief t, d.top⟩) s (s.dequeAt p d)

/-- The worker calls `pop_local`, which scans in the direction that the mode and `pop_index` say,
whichever that is; it is in no other operation on its deques. -/
structure Called (s : State Tid) : Prop where
  pc : ∃ lowestFirst, s.pc = .scanning (scan lowestFirst)
  owner : ∀ p, (s.deques p).owner = .idle

/-! ### Simulation -/

/-- The pop that the probe may skip has not begun. -/
def Pc.unprobed : Pc → Pc
  | .probing p _ rest => .scanning (p :: rest)
  | pc => pc

/-- The worker is inside no pop but the one the call stands at, and what the probe has read of
`bottom_` is still there. -/
def Pc.Sound (deques : TaskPriority → AbpDeque.State Tid TaskHandle) : Pc → Prop
  | .scanning _ | .returned _ => ∀ q, (deques q).owner = .idle
  | .probing p b _ => (∀ q, (deques q).owner = .idle) ∧ (deques p).bottom = b
  | .popping p _ => ∀ q, q ≠ p → (deques q).owner = .idle

variable {cfg : RuntimeConfig} {s s' : State Tid} {p : TaskPriority} {rest : List TaskPriority}

/-- A pop that finds the deque empty, with no thief in between, changes nothing. -/
theorem pop_empty (hpc : s.pc = .scanning (p :: rest)) (howner : (s.deques p).owner = .idle)
    (hempty : (s.deques p).bottom ≤ (s.deques p).top) (hskip : cfg.skipEmptyDeques = false) :
    Trace (Step cfg) s [] (s.pcAt (.scanning rest)) := by
  obtain ⟨b, hb⟩ : ∃ b, b = (s.deques p).bottom - 1 := ⟨_, rfl⟩
  let d₁ : AbpDeque.State Tid TaskHandle := {s.deques p with owner := .popStore b}
  let d₂ : AbpDeque.State Tid TaskHandle := {s.deques p with owner := .popTop b, bottom := b}
  let d₃ : AbpDeque.State Tid TaskHandle := {s.deques p with owner := .popEmpty b, bottom := b}
  have h₁ : AbpDeque.Step cfg.capacityBits .owner (s.deques p) d₁ := by
    subst hb
    exact .pop howner
  have h₂ : AbpDeque.Step cfg.capacityBits .owner d₁ d₂ := .popStore rfl
  have h₃ : AbpDeque.Step cfg.capacityBits .owner d₂ d₃ := .popNone rfl (by
    show (s.deques p).top > b
    omega)
  have h₄ : AbpDeque.Step cfg.capacityBits .owner d₃ (s.deques p) := by
    have hrestore : AbpDeque.Step cfg.capacityBits .owner d₃ {d₃ with owner := .idle, bottom := b + 1} :=
      .popEmpty rfl
    have hback : ({d₃ with owner := .idle, bottom := b + 1} : AbpDeque.State Tid TaskHandle) =
        s.deques p := by
      rw [hb, sub_add_cancel, ← howner]
    exact hback ▸ hrestore
  let u := s.pcAt (.popping p rest)
  have hbegin : Step cfg none s u := .unprobed hpc hskip
  have hstore : Step cfg none u (u.dequeAt p d₁) := .pop rfl h₁ trivial
  have hread : Step cfg none (u.dequeAt p d₁) (u.dequeAt p d₂) := by
    have hstep : Step cfg none (u.dequeAt p d₁) ((u.dequeAt p d₁).dequeAt p d₂) :=
      .pop rfl ((u.dequeAt_self p d₁).symm ▸ h₂) trivial
    rwa [State.dequeAt_dequeAt] at hstep
  have hnone : Step cfg none (u.dequeAt p d₂) (u.dequeAt p d₃) := by
    have hstep : Step cfg none (u.dequeAt p d₂) ((u.dequeAt p d₂).dequeAt p d₃) :=
      .pop rfl ((u.dequeAt_self p d₂).symm ▸ h₃) trivial
    rwa [State.dequeAt_dequeAt] at hstep
  have hend : Step cfg none (u.dequeAt p d₃) (s.pcAt (.scanning rest)) := by
    have hstep : Step cfg none (u.dequeAt p d₃)
        (((u.dequeAt p d₃).dequeAt p (s.deques p)).pcAt (.scanning rest)) :=
      .popMiss rfl ((u.dequeAt_self p d₃).symm ▸ h₄) howner (by rw [u.dequeAt_self])
    have hback : u.dequeAt p (s.deques p) = u := u.dequeAt_deques p
    rwa [State.dequeAt_dequeAt, hback] at hstep
  exact .silent hbegin (.silent hstore (.silent hread (.silent hnone (.silent hend .nil))))

/-- The configuration without the option. -/
def unprobed (cfg : RuntimeConfig) : RuntimeConfig := {cfg with skipEmptyDeques := false}

/-- The state as the call without the probe has it. -/
def State.unprobed (s : State Tid) : State Tid := s.pcAt s.pc.unprobed

omit [DecidableEq Tid] in
theorem unprobed_eq (h : s.pc.unprobed = s.pc) : s.unprobed = s := by
  rw [State.unprobed, h]
  rfl

omit [DecidableEq Tid] in
/-- When a pop is over, the worker is in none. -/
theorem idle_after {d : AbpDeque.State Tid TaskHandle} (hsound : ∀ q, q ≠ p → (s.deques q).owner = .idle)
    (hidle : d.owner = .idle) (q : TaskPriority) : ((s.dequeAt p d).deques q).owner = .idle := by
  by_cases hq : q = p
  · rw [hq, s.dequeAt_self, hidle]
  · rw [State.dequeAt_of_ne hq, hsound q hq]

omit [DecidableEq Tid] in
/-- It is about the owner's side of the deques. -/
theorem Pc.Sound.frame {deques deques' : TaskPriority → AbpDeque.State Tid TaskHandle} {pc : Pc}
    (h : pc.Sound deques)
    (hsame : ∀ q, (deques' q).owner = (deques q).owner ∧ (deques' q).bottom = (deques q).bottom) :
    pc.Sound deques' := by
  cases pc with
  | scanning rest => exact fun q => (hsame q).1.trans (h q)
  | probing p b rest => exact ⟨fun q => (hsame q).1.trans (h.1 q), (hsame p).2.trans h.2⟩
  | popping p rest => exact fun q hq => (hsame q).1.trans (h q hq)
  | returned r => exact fun q => (hsame q).1.trans (h q)

theorem sound_step {e : Option (Event Tid)} (h : s.pc.Sound s.deques) (hstep : Step cfg e s s') :
    s'.pc.Sound s'.deques := by
  cases hstep with
  | probe hpc =>
    rw [hpc] at h
    exact ⟨h, rfl⟩
  | probeEmpty hpc =>
    rw [hpc] at h
    exact h.1
  | probeSome hpc =>
    rw [hpc] at h
    exact fun q _ => h.1 q
  | unprobed hpc =>
    rw [hpc] at h
    exact fun q _ => h q
  | @pop _ p rest d hpc =>
    show s.pc.Sound (s.dequeAt p d).deques
    rw [hpc] at h ⊢
    intro q hq
    rw [State.dequeAt_of_ne hq]
    exact h q hq
  | popTook hpc _ hidle =>
    rw [hpc] at h
    exact idle_after h hidle
  | popMiss hpc _ hidle =>
    rw [hpc] at h
    exact idle_after h hidle
  | miss hpc =>
    rw [hpc] at h
    exact h
  | @thief _ p t d hthief =>
    refine h.frame fun q => ?_
    by_cases hq : q = p
    · rw [hq, s.dequeAt_self]
      exact AbpDeque.owner_other hthief (by simp)
    · rw [State.dequeAt_of_ne hq]
      exact ⟨rfl, rfl⟩

theorem simulates {e : Option (Event Tid)} (h : s.pc.Sound s.deques) (hstep : Step cfg e s s') :
    Trace (Step (PopLocal.unprobed cfg)) s.unprobed e.toList s'.unprobed := by
  cases hstep with
  | @probe _ p rest hpc =>
    have hsame : (s.pcAt (.probing p (s.deques p).bottom rest)).unprobed = s.unprobed := by
      simp only [State.unprobed, State.pcAt, hpc, Pc.unprobed]
    rw [hsame]
    exact .nil
  | @probeEmpty _ p b rest hpc hempty =>
    rw [hpc] at h
    obtain ⟨hidle, hbottom⟩ := h
    have hscan : s.unprobed.pc = .scanning (p :: rest) := by
      simp only [State.unprobed, State.pcAt, hpc, Pc.unprobed]
    refine pop_empty hscan (hidle p) ?_ rfl
    show (s.deques p).bottom ≤ (s.deques p).top
    omega
  | @probeSome _ p b rest hpc _ =>
    have hscan : s.unprobed.pc = .scanning (p :: rest) := by
      simp only [State.unprobed, State.pcAt, hpc, Pc.unprobed]
    exact .silent (.unprobed hscan rfl) .nil
  | @unprobed _ p rest hpc _ =>
    have hscan : s.unprobed.pc = .scanning (p :: rest) := by
      simp only [State.unprobed, State.pcAt, hpc, Pc.unprobed]
    exact .silent (.unprobed hscan rfl) .nil
  | @pop _ p rest d hpc hd hin =>
    have hsame : s.pc.unprobed = s.pc := by simp only [hpc, Pc.unprobed]
    have hsame' : (s.dequeAt p d).pc.unprobed = (s.dequeAt p d).pc := hsame
    rw [unprobed_eq hsame, unprobed_eq hsame']
    exact .silent (.pop hpc hd hin) .nil
  | popTook hpc hd hidle hret =>
    rw [unprobed_eq (by simp only [hpc, Pc.unprobed])]
    exact .silent (.popTook hpc hd hidle hret) .nil
  | popMiss hpc hd hidle hret =>
    rw [unprobed_eq (by simp only [hpc, Pc.unprobed])]
    exact .silent (.popMiss hpc hd hidle hret) .nil
  | miss hpc =>
    rw [unprobed_eq (by simp only [hpc, Pc.unprobed])]
    exact .silent (.miss hpc) .nil
  | thief hd =>
    have hthief : Step (PopLocal.unprobed cfg) _ s.unprobed _ := .thief hd
    exact Trace.single hthief

/-- **Skipping empty deques changes nothing but cost**: what a call returns, the deques and the
`pop_index` it leaves, and the steps of the thieves during it, a call without the probe can
show too. -/
theorem probe_refines {events : List (Event Tid)} {r : Option TaskHandle} (hcall : Called s)
    (hrun : Trace (Step cfg) s events s') (hret : s'.pc = .returned r) :
    Trace (Step (PopLocal.unprobed cfg)) s events s' := by
  obtain ⟨lowestFirst, hscan⟩ := hcall.pc
  have hsound : s.pc.Sound s.deques := by
    rw [hscan]
    exact hcall.owner
  obtain ⟨u, ⟨_, hu⟩, htrace⟩ := hrun.simulate
    (R := fun s u => s.pc.Sound s.deques ∧ u = s.unprobed)
    (fun e s s' t h hs => ⟨s'.unprobed, ⟨sound_step h.1 hs, rfl⟩, h.2 ▸ simulates h.1 hs⟩) ⟨hsound, rfl⟩
  have hstart : s.unprobed = s := unprobed_eq (by simp only [hscan, Pc.unprobed])
  have hend : s'.unprobed = s' := unprobed_eq (by simp only [hret, Pc.unprobed])
  rwa [hu, hstart, hend] at htrace

/-- Five empty deques, and a thief that reads `top_` of one of them. -/
theorem probe_refines_empty : ∃ s s' : State (Fin 1),
    Called s ∧ s'.pc = .returned none ∧
      Trace (Step (PopLocal.unprobed ⟨.WorkStealing, true, 1⟩)) s [⟨.Low, 0, .stealBottom 0, 0⟩] s' := by
  let cfg : RuntimeConfig := ⟨.WorkStealing, true, 1⟩
  let s : State (Fin 1) :=
    ⟨fun _ => ⟨0, 0, fun _ => ⟨0, 0⟩, .idle, fun _ => .idle, [], fun _ => 0, []⟩, 0, .scanning (scan false)⟩
  have hcall : Called s := ⟨⟨false, rfl⟩, fun _ => rfl⟩
  let d : AbpDeque.State (Fin 1) TaskHandle := (s.deques .Low).thiefAt 0 (.stealBottom 0)
  have hthief : Step cfg (some ⟨.Low, 0, d.thief 0, d.top⟩) s (s.dequeAt .Low d) := .thief (.steal rfl)
  have hempty : ∀ p, ¬((s.dequeAt .Low d).deques p).bottom - ((s.dequeAt .Low d).deques p).top > 0 := by
    intro p
    cases p <;> exact Int.not_lt.mpr (by decide)
  have hpass : ∀ p rest, Trace (Step cfg) ((s.dequeAt .Low d).pcAt (.scanning (p :: rest))) []
      ((s.dequeAt .Low d).pcAt (.scanning rest)) := by
    intro p rest
    let u := (s.dequeAt .Low d).pcAt (.probing p ((s.dequeAt .Low d).deques p).bottom rest)
    have hskip : Step cfg none u (u.pcAt (.scanning rest)) := .probeEmpty rfl (hempty p)
    exact .silent (.probe rfl rfl) (.silent hskip .nil)
  have hscan : Trace (Step cfg) (s.dequeAt .Low d) [] ((s.dequeAt .Low d).pcAt (.scanning [])) :=
    (hpass .Critical _).append ((hpass .High _).append ((hpass .Normal _).append
      ((hpass .Low _).append (hpass .Background _))))
  have hmiss : Trace (Step cfg) ((s.dequeAt .Low d).pcAt (.scanning [])) []
      ((s.dequeAt .Low d).pcAt (.returned none)) := .silent (.miss rfl) .nil
  have hrun : Trace (Step cfg) s [⟨.Low, 0, .stealBottom 0, 0⟩] ((s.dequeAt .Low d).pcAt (.returned none)) :=
    .cons hthief (hscan.append hmiss)
  exact ⟨s, _, hcall, rfl, probe_refines hcall hrun rfl⟩

end Thunderbolt.Scheduler.PopLocal
