import Mathlib.Tactic.FinCases
import Thunderbolt.Runtime.HelpOnWaitProofs

/-! Programs whose bodies only submit.

Where there is a slot for every task, a body never waits. Where there is none, `submit_after` waits for the
dependencies, and one of those may be the task whose body has called it, or a task that waits for that one
(`pool_exhaustion_stuck`). Nothing else gets such a program stuck (`pool_exhaustion`). -/
namespace Thunderbolt.Runtime.HelpOnWait
open Concurrent Lifecycle

variable {Thread Call : Type} [DecidableEq Thread] [DecidableEq Call] {cfg : PoolConfig}
  {a : Act Thread Call} {s s' : State Thread Call}

/-- Bodies do not wait. -/
def Act.Submits (a : Act Thread Call) (s : State Thread Call) : Prop :=
  a.Bounded s ∧ ∀ θ c y, a = .wait θ c y → s.body (s.stack θ) = none

/-- Nor does a `submit_after` without a slot, for the body it is called by. -/
def Act.Proceeds (a : Act Thread Call) (s : State Thread Call) : Prop :=
  a.Submits s ∧ ∀ t x, a.Begins s t x → ¬Closes s t x

/-- What holds while bodies only submit. -/
structure Submitting (cfg : PoolConfig) (s : State Thread Call) : Prop where
  inv : Inv s
  reachable : Reachable (regular Call cfg) s.runtime
  target : ∀ θ f g rest v, f :: g :: rest <:+ s.stack θ → bodyOf (s.runtime.pc g.call) = some v → f.target = none
  acyclic : Acyclic (Hangs s)

namespace Submitting

omit [DecidableEq Thread] in
theorem initial (base : Thread ↪ Call) : Submitting cfg (initial base) where
  inv := .initial base
  reachable := .initial rfl
  target θ f g rest v hl := absurd hl.length_le (by simp [HelpOnWait.initial])
  acyclic := by
    refine .of_rank id fun v w hvw => ?_
    cases hvw with
    | beneath _ _ hv _ => cases hv
    | waits _ hv _ _ _ _ => cases hv

variable (h : Submitting cfg s)

include h in
omit [DecidableEq Thread] in
/-- Who waits in a body is in `submit_after`, and the submission is not over. -/
theorem watched (hfresh : Fresh s.runtime) : Watched s := by
  intro θ f g rest v x hl hv hx
  have hinv : Lifecycle.Inv cfg s.runtime := .reachable (sized_of_regular h.reachable)
  obtain htarget | ⟨u, k, hawaits, hx⟩ := hx
  · cases (h.target θ f g rest v hl hv).symm.trans htarget
  · exact hfresh u (by rw [hinv.awaits_entering hawaits]; trivial) x hx

include h in
theorem step (hs : Step cfg a s s') (hproceeds : a.Proceeds s) : Submitting cfg s' := by
  have hinv : Lifecycle.Inv cfg s.runtime := .reachable (sized_of_regular h.reachable)
  obtain ⟨⟨hbound, hnowait⟩, hcloses⟩ := hproceeds
  have hfresh := hbound.fresh
  obtain ⟨θ, f, rest, _, m⟩ := h.inv.turn h.reachable hs hbound
  refine ⟨m.inv h.inv, m.reachable h.reachable, ?_, ?_⟩
  · intro θ' g k l v hl hv
    obtain ⟨rfl, hafter, heq⟩ | ⟨hl, hne⟩ := m.suffix h.inv hl
    · cases heq
      rw [m.pc k.call (m.rest_ne h.inv List.mem_cons_self)] at hv
      by_contra htarget
      obtain ⟨y, hy⟩ := Option.ne_none_iff_exists'.mp htarget
      obtain hbefore | ⟨hbefore, c, rfl⟩ := m.target hafter y hy
      · exact htarget (h.target θ' f k l v (hbefore ▸ List.suffix_rfl) hv)
      · have hnone := hnowait θ' c y rfl
        rw [hbefore] at hnone
        cases hnone.symm.trans hv
    · rw [m.pc k.call (hne k (List.mem_cons_of_mem _ List.mem_cons_self))] at hv
      exact h.target θ' g k l v hl hv
  · refine m.acyclic h.inv hinv (h.watched hfresh) hfresh h.acyclic fun v x hx => ⟨?_, hcloses v x hx⟩
    cases a with
    | wait θ c y => cases (hnowait θ c y rfl).symm.trans hx.1
    | exhausted θ =>
      obtain ⟨f, rest, u, em, _, hacquiring, _, hx⟩ := hx
      exact hfresh u (by rw [(hinv.at_pc hacquiring).1]; trivial) x hx
    | _ => exact hx.elim

theorem reachable_of (base : Thread ↪ Call)
    (h : Reachable ((system cfg base).restrict Act.Proceeds) s) : Submitting cfg s := by
  induction h with
  | initial hs =>
    subst hs
    exact initial base
  | step _ hs ih => exact ih.step hs.1 hs.2

end Submitting

/-- **Programs whose bodies only submit do not get stuck**, whatever the capacity, as long as no body
begins to wait for itself. -/
theorem pool_exhaustion (base : Thread ↪ Call) (h : Reachable ((system cfg base).restrict Act.Proceeds) s) :
    ¬Stuck cfg s := by
  intro hstuck
  have h := Submitting.reachable_of base h
  refine h.inv.not_stuck hstuck h.reachable ?_ h.acyclic
  intro θ f g rest v y hl hv hy
  cases (h.target θ f g rest v hl hv).symm.trans hy

/-! ### A body that waits for itself -/

namespace OneSlot

/-- A user and a worker, each with a call of its own; the third is made by a body. -/
def threads : Fin 2 ↪ Fin 3 := ⟨Fin.castSucc, Fin.castSucc_injective 2⟩

def first : TaskHandle := ⟨0, 0⟩

/-- A thread makes its own call, and depends on nothing. -/
def Alone (b : Lifecycle.Act (Fin 3)) (_ : Lifecycle.State (Fin 3)) : Prop :=
  (∃ θ, b.call = threads θ) ∧ (∀ c, b ≠ .reenter c) ∧ ∀ c deps, b = .submit c deps → deps = []

abbrev Run (x : Lifecycle.State (Fin 3)) : Prop :=
  Reachable ((Lifecycle.system (Fin 3) singleSlot).restrict Alone) x

theorem Run.step {x r : Lifecycle.State (Fin 3)} (h : Run x) (θ : Fin 2)
    (hs : Lifecycle.Step singleSlot (.step (threads θ)) x r) : Run r :=
  Reachable.step h ⟨hs, ⟨θ, rfl⟩, fun _ => nofun, fun _ _ => nofun⟩

theorem Run.submit {x r : Lifecycle.State (Fin 3)} (h : Run x) (θ : Fin 2)
    (hs : Lifecycle.Step singleSlot (.submit (threads θ) []) x r) : Run r := by
  refine Reachable.step h ⟨hs, ⟨θ, rfl⟩, fun _ => nofun, ?_⟩
  intro _ _ hnone
  cases hnone
  rfl

theorem Run.sized {x : Lifecycle.State (Fin 3)} (h : Run x) : Reachable (sized (Fin 3) singleSlot) x := by
  refine h.restrict_mono fun b _ halone => ?_
  cases b with
  | submit c deps =>
    obtain rfl := halone.2.2 c deps rfl
    exact Nat.two_pow_pos 32
  | _ => trivial

theorem Run.dependencies {x : Lifecycle.State (Fin 3)} (h : Run x) (t : ℕ) : (x.sub t).dependencies = [] := by
  induction h with
  | initial hx =>
    subst hx
    rfl
  | @step b x r h hs ih =>
    have hinv : Lifecycle.Inv singleSlot x := .reachable (Run.sized h)
    obtain heq | hadv | ⟨_, _, deps, hb, heq⟩ := hinv.advance hs.1 t
    · rwa [heq]
    · rwa [hadv.dependencies]
    · rw [heq]
      exact hs.2.2.2 _ deps hb

theorem Run.fresh {x : Lifecycle.State (Fin 3)} (h : Run x) : Fresh x := by
  intro t _ d hd
  rw [h.dependencies t] at hd
  cases hd

/-- Such a run, with the threads' stacks. -/
theorem Run.stacks {x : Lifecycle.State (Fin 3)} (h : Run x) :
    ∃ s, Reachable ((system singleSlot threads).restrict Act.Proceeds) s ∧ s.runtime = x ∧
      ∀ θ, s.stack θ = [⟨threads θ, none⟩] := by
  refine outside threads (fun b _ halone => ⟨halone.1, halone.2.1⟩) ?_ ?_ h
  · intro θ deps s hreach halone
    obtain rfl := halone.2.2 _ deps rfl
    exact ⟨⟨⟨Run.fresh hreach, Nat.two_pow_pos 32, nofun⟩, fun _ _ _ => nofun⟩, fun _ _ => False.elim⟩
  · intro θ s hreach hstack
    refine ⟨⟨⟨Run.fresh hreach, fun _ _ _ => nofun⟩, fun _ _ => False.elim⟩,
      ⟨Run.fresh hreach, fun _ _ _ => nofun⟩, ?_⟩
    intro t x hsome
    obtain ⟨f, rest, _, _, heq, _, hbody, _⟩ := hsome
    cases (hstack θ).symm.trans heq
    cases hbody

/-- A body has called `submit_after`, with the first handle. -/
def calling (x : Lifecycle.State (Fin 3)) : Lifecycle.State (Fin 3) :=
  {x with
    outstanding := x.outstanding + 1, submitted := x.submitted + 1
    sub := Function.update x.sub x.submitted (.enter 2 [first])}.pcAt 2 (.acquiring x.submitted false)

/-- The slot is that of the first task, and the third call is not made. -/
structure Held (x : Lifecycle.State (Fin 3)) : Prop where
  other : x.pc 2 = .idle
  issued : (x.sub 0).issued = some (0, 0)
  submitted : 0 < x.submitted
  releases : (x.slots 0).releases = 0
  generation : (x.slots 0).generation = 0

variable {x : Lifecycle.State (Fin 3)} {s : State (Fin 2) (Fin 3)} {θ : Fin 2} {t : ℕ}

theorem Held.recent (hx : Held x) : Recent x first :=
  .inr ⟨0, 0, ⟨hx.issued, rfl⟩, by
    show (x.slots 0).releases + 1 < _
    rw [hx.releases]
    decide⟩

theorem Held.recent_calling (hx : Held x) : Recent (calling x) first := by
  refine .inr ⟨0, 0, ⟨?_, rfl⟩, ?_⟩
  · show (Function.update x.sub x.submitted _ 0).issued = _
    rw [Function.update_of_ne hx.submitted.ne]
    exact hx.issued
  · show (x.slots 0).releases + 1 < _
    rw [hx.releases]
    decide

theorem Held.fresh_calling (hx : Held x) (hrun : Run x) : Fresh (calling x) := by
  intro u _ d hd
  have hd : d ∈ (Function.update x.sub x.submitted (.enter 2 [first]) u).dependencies := hd
  rcases eq_or_ne u x.submitted with rfl | hne
  · rw [Function.update_self] at hd
    obtain rfl : d = first := List.mem_singleton.mp hd
    exact hx.recent_calling
  · rw [Function.update_of_ne hne, hrun.dependencies u] at hd
    cases hd

/-- It calls. -/
theorem calls (θ : Fin 2) (hrun : Run x) (hx : Held x) (hbody : bodyOf (x.pc (threads θ)) = some t) :
    ∃ s, Reachable ((system singleSlot threads).restrict Act.Proceeds) s ∧ s.runtime = calling x ∧
      s.stack θ = [⟨2, none⟩, ⟨threads θ, none⟩] ∧ ∀ θ', θ' ≠ θ → s.stack θ' = [⟨threads θ', none⟩] := by
  obtain ⟨s, h, rfl, hstack⟩ := hrun.stacks
  have hunused : s.Unused 2 := by
    intro θ' f hf
    rw [hstack θ'] at hf
    obtain rfl := List.mem_singleton.mp hf
    exact fun heq => (Fin.castSucc_lt_last θ').ne heq
  have hcall : Step singleSlot (.call θ 2 [first]) s _ :=
    .call (by rw [hstack θ]; exact hbody) hunused (.submit [first] hx.other)
  refine ⟨_, h.step ⟨hcall, ⟨⟨hrun.fresh, by decide, ?_⟩, fun _ _ _ => nofun⟩, fun _ _ => False.elim⟩, rfl, ?_, ?_⟩
  · intro y hy
    obtain rfl := List.mem_singleton.mp hy
    exact hx.recent
  · show Function.update s.stack θ (⟨2, none⟩ :: s.stack θ) θ = _
    rw [Function.update_self, hstack θ]
  · intro θ' hne
    show Function.update s.stack θ (⟨2, none⟩ :: s.stack θ) θ' = _
    rw [Function.update_of_ne hne, hstack θ']

/-- It finds no slot. -/
theorem exhausts (hruntime : s.runtime = calling x) (hstack : s.stack θ = [⟨2, none⟩, ⟨threads θ, none⟩]) :
    ∃ s', Step singleSlot (.exhausted θ) s s' ∧ s'.stack = s.stack ∧
      s'.runtime = (calling x).pcAt 2 (.awaiting x.submitted 0) := by
  have hacquiring : s.runtime.pc 2 = .acquiring x.submitted false := by
    rw [hruntime]
    exact Function.update_self 2 _ x.pc
  refine ⟨_, .exhausted hstack hacquiring, rfl, ?_⟩
  have hdeps : (s.runtime.sub x.submitted).dependencies = [first] := by
    rw [hruntime]
    show (Function.update x.sub x.submitted _ x.submitted).dependencies = _
    rw [Function.update_self]
    rfl
  show s.runtime.pcAt 2 _ = _
  rw [hdeps, hruntime]
  rfl

/-- The first task is queued. -/
theorem queued : ∃ x, Run x ∧ Held x ∧ x.submitted = 1 ∧ x.ready = {first} ∧ x.pc 0 = .idle ∧ x.pc 1 = .idle ∧
    (x.slots 0).place = .held 0 ∧ (x.slots 0).function = some 0 ∧ (x.sub 0).stage = .queued ∧
      (x.sub 0).ended = false ∧ (x.sub 0).threw = false := by
  have h0 : Run (Lifecycle.initial : Lifecycle.State (Fin 3)) := .initial rfl
  have h1 := h0.submit 0 (Lifecycle.Step.submit [] (by rfl))
  have h2 := h1.step 0 (Lifecycle.Step.acquire 0 (by rfl) (by decide) (by rfl))
  have h3 := h2.step 0 (Lifecycle.Step.open_successors (by rfl))
  have h4 := h3.step 0 (Lifecycle.Step.create (by rfl))
  have h5 := h4.step 0 (Lifecycle.Step.publish (by rfl))
  have h6 := h5.step 0 (Lifecycle.Step.enqueue_ready (by rfl))
  exact ⟨_, h6, ⟨by rfl, by rfl, by decide, by rfl, by rfl⟩, by rfl, by rfl, by rfl, by rfl, by rfl, by rfl, by rfl,
    by rfl, by rfl⟩

/-- A worker has called its body. -/
theorem running : ∃ x, Run x ∧ Held x ∧ x.submitted = 1 ∧ x.ready = 0 ∧ x.pc 0 = .idle ∧
    x.pc 1 = .running 0 first ∧ (x.slots 0).state = .Executing ∧ (x.sub 0).ended = false ∧
      (x.sub 0).threw = false := by
  obtain ⟨x, h, hx, hsubmitted, hready, huser, hworker, hplace, hfunction, _, hended, hthrew⟩ := queued
  have h1 := h.step 1 (Lifecycle.Step.dequeue first hworker (by simp [hready]))
  have h2 := h1.step 1 (Lifecycle.Step.execute (h := first) (by rfl) ⟨rfl, by decide, hx.generation⟩)
  have h3 := h2.step 1 (Lifecycle.Step.exchange (by rfl))
  have h4 := h3.step 1 (Lifecycle.Step.call (h := first) (t := 0) (by rfl) (by simp [first, hfunction]))
  refine ⟨_, h4, ⟨hx.other, ?_, hx.submitted, ?_, ?_⟩, hsubmitted, ?_, huser, by rfl, ?_, ?_, ?_⟩
  · simp [State.claim, first, hplace, hx.issued]
  · simp [first, hx.releases]
  · simp [first, hx.generation]
  · simp [hready]
  · simp [first]
  · simp [State.claim, first, hplace, hended]
  · simp [State.claim, first, hplace, hthrew]

/-- The user runs another itself. -/
theorem inlined : ∃ x, Run x ∧ Held x ∧ x.submitted = 2 ∧ x.pc 0 = .inlined 1 ∧ (x.slots 0).place = .held 0 ∧
    (x.sub 0).stage = .queued := by
  obtain ⟨x, h, hx, hsubmitted, _, huser, _, hplace, _, hst, _⟩ := queued
  have h1 := h.submit 0 (Lifecycle.Step.submit [] huser)
  have h2 := h1.step 0 (Lifecycle.Step.exhausted (by rfl : _ = Pc.acquiring x.submitted false))
  have h3 := h2.step 0 (Lifecycle.Step.run_inline (t := x.submitted)
    (by simp [Lifecycle.exhausted, Submission.enter]))
  have hne : (0 : ℕ) ≠ x.submitted := hx.submitted.ne
  refine ⟨_, h3, ⟨hx.other, ?_, ?_, ?_, ?_⟩, congrArg Nat.succ hsubmitted, ?_, hplace, ?_⟩
  · simp [hne, hx.issued]
  · simp
  · exact hx.releases
  · exact hx.generation
  · simp [threads, hsubmitted]
  · simp [hne, hst]

end OneSlot

/-- A body waits in `submit_after` for a task that is queued. -/
theorem pool_exhaustion_waiting : ∃ s : State (Fin 2) (Fin 3),
    Reachable ((system singleSlot OneSlot.threads).restrict Act.Proceeds) s ∧ s.runtime.pc 2 = .awaiting 2 0 ∧
      ¬Stuck singleSlot s := by
  obtain ⟨x, hrun, hx, hsubmitted, huser, hplace, hst⟩ := OneSlot.inlined
  obtain ⟨s, h, hruntime, hstack, _⟩ := OneSlot.calls 0 (t := 1) hrun hx
    (by show bodyOf (x.pc 0) = some 1; rw [huser]; rfl)
  obtain ⟨s', hs', _, hruntime'⟩ := OneSlot.exhausts hruntime hstack
  have hfresh : Fresh s.runtime := by
    rw [hruntime]
    exact hx.fresh_calling hrun
  have hold : s.runtime.sub 0 = x.sub 0 := by
    rw [hruntime]
    exact Function.update_of_ne hx.submitted.ne _ x.sub
  have hreach : Reachable ((system singleSlot OneSlot.threads).restrict Act.Proceeds) s' := by
    refine h.step ⟨hs', ⟨hfresh, fun _ _ _ => nofun⟩, ?_⟩
    -- The first task depends on nothing, and has not been started.
    rintro t y ⟨f, rest, u, em, hstack', hacquiring, _, hy⟩ ⟨v, w, ⟨hv, _⟩, hneeds, ⟨c, hw⟩, _⟩
    cases hstack.symm.trans hstack'
    have hslot : (s.runtime.slots 0).place = .held 0 := by
      rw [hruntime]
      exact hplace
    obtain rfl : y = OneSlot.first := by
      rw [hruntime] at hacquiring hy
      cases (Function.update_self 2 _ x.pc).symm.trans hacquiring
      have hy : y ∈ (Function.update x.sub x.submitted (.enter 2 [OneSlot.first]) x.submitted).dependencies := hy
      rw [Function.update_self] at hy
      exact List.mem_singleton.mp hy
    obtain rfl : (0 : ℕ) = v := by
      cases hslot.symm.trans hv
      rfl
    obtain rfl | ⟨_, ⟨_, d, hd, _⟩, _⟩ := hneeds.cases_head
    · rw [hold, hst] at hw
      cases hw
    · rw [hold, hrun.dependencies 0] at hd
      cases hd
  refine ⟨s', hreach, ?_, pool_exhaustion OneSlot.threads hreach⟩
  rw [hruntime', hsubmitted]
  exact Function.update_self 2 _ (OneSlot.calling x).pc

/-- The body of the only task a pool has a slot for passes its own handle to `submit_after`: nobody can go on. -/
theorem pool_exhaustion_stuck : ¬∀ s, Reachable ((system singleSlot OneSlot.threads).restrict Act.Submits) s →
    ¬Stuck singleSlot s := by
  intro hall
  obtain ⟨x, hrun, hx, hsubmitted, hready, huser, hworker, hstate, hended, hthrew⟩ := OneSlot.running
  obtain ⟨s, h, hruntime, hstack, hothers⟩ := OneSlot.calls 1 (t := 0) hrun hx
    (by show bodyOf (x.pc 1) = some 0; rw [hworker]; rfl)
  obtain ⟨s', hs', hstack', hruntime'⟩ := OneSlot.exhausts hruntime hstack
  have h : Reachable ((system singleSlot OneSlot.threads).restrict Act.Submits) s :=
    h.restrict_mono fun _ _ hproceeds => hproceeds.1
  have hfresh : Fresh s.runtime := by
    rw [hruntime]
    exact hx.fresh_calling hrun
  have hpc : ∀ c, s'.runtime.pc c = Function.update x.pc 2 (.awaiting 1 0) c := by
    intro c
    rw [hruntime', hsubmitted]
    show Function.update (Function.update x.pc 2 _) 2 _ c = _
    rw [Function.update_idem]
  refine hall s' (h.step ⟨hs', hfresh, fun _ _ _ => nofun⟩) ⟨⟨0, ?_⟩, ?_, ?_, ?_⟩
  · rw [hruntime']
    exact ⟨Nat.succ_pos _, by simp [OneSlot.calling, hsubmitted, hended, hthrew]⟩
  · rw [hruntime']
    exact hready
  · intro c y
    rw [hpc]
    fin_cases c
    · simp [huser]
    · simp [hworker]
    · simp
  · rw [hstack']
    refine Fin.forall_fin_two.mpr ⟨?_, ?_⟩
    · rw [hothers 0 (by decide)]
      refine .idle rfl ?_
      rw [hpc]
      exact huser
    · rw [hstack]
      refine .submit_after (t := 1) (k := 0) (x := OneSlot.first) rfl ?_ ?_ ?_
      · rw [hpc]
        rfl
      · rw [hruntime', ← hsubmitted]
        show (Function.update x.sub x.submitted (.enter 2 [OneSlot.first]) x.submitted).dependencies[0]? = _
        rw [Function.update_self]
        rfl
      · rw [hruntime']
        refine ⟨⟨rfl, by decide, hx.generation⟩, ?_⟩
        show (x.slots 0).state ≠ _
        rw [hstate]
        exact nofun

end Thunderbolt.Runtime.HelpOnWait
