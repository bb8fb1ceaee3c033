import Thunderbolt.Runtime.ExactlyOnce
import Thunderbolt.Runtime.ForkJoin

/-! What a scheduler sees of the threads.

A thread in `enqueue_ready` offers a task; one in the loop of a worker, or of a wait, asks for one. What is
ready is what a scheduler is to hold (`Ready`), and where it holds nothing the threads of a fork-join program
do not all wait (`Parented.ready_ne_zero`). -/
namespace Thunderbolt.Runtime.HelpOnWait
open Concurrent Lifecycle

variable {Thread Call : Type}

/-- The task the call is about to enqueue. -/
def offers : Pc Call → Option TaskHandle
  | .enqueueing _ h | .passing _ h _ _ => some h
  | _ => none

namespace State

def Offers (s : State Thread Call) (θ : Thread) (h : TaskHandle) : Prop :=
  ∃ f rest, s.stack θ = f :: rest ∧ offers (s.runtime.pc f.call) = some h

/-- The thread is in no call. -/
def Loops (s : State Thread Call) (θ : Thread) : Prop :=
  ∃ f, s.stack θ = [f] ∧ s.runtime.pc f.call = .idle

/-- The thread is in the loop of a wait. -/
def Waits (s : State Thread Call) (θ : Thread) : Prop :=
  ∃ f rest, s.stack θ = f :: rest ∧ s.Helps f

end State

/-- These are the ready tasks, each of them once; each has its slot, and has not been called. -/
structure Ready (cfg : PoolConfig) (x : Lifecycle.State Call) (m : Multiset TaskHandle) : Prop where
  card : m.card ≤ cfg.capacity
  nodup : m.Nodup
  queued : ∀ y ∈ m, x.Resolves cfg y ∧ ∃ t, (x.sub t).stage = .queued ∧ Of x y t
  all : ∀ t, (x.sub t).stage = .queued → ∃ y ∈ m, Of x y t

variable {cfg : PoolConfig}

section Ready
variable [DecidableEq Call] {x : Lifecycle.State Call}

theorem resolves_ready (h : Lifecycle.Inv cfg x) {y : TaskHandle} (hy : y ∈ x.ready) :
    x.Resolves cfg y ∧ ∃ t, (x.sub t).stage = .queued ∧ Of x y t := by
  obtain ⟨t, hst, hof⟩ := h.ready y hy
  exact ⟨h.resolves hof (by rw [hst]; trivial), t, hst, hof⟩

/-- Each ready task has a slot of its own. -/
theorem card_ready (h : Lifecycle.Inv cfg x) : x.ready.card ≤ cfg.capacity := by
  have hnodup : (x.ready.map TaskHandle.index).Nodup := by
    refine Multiset.Nodup.map_on (fun y hy z hz heq => ?_) h.nodup
    have hgeneration := (resolves_ready h hy).1.2.2.symm.trans (heq ▸ (resolves_ready h hz).1.2.2)
    cases y
    cases z
    cases heq
    cases hgeneration
    rfl
  have hbelow : x.ready.map TaskHandle.index ≤ Multiset.range cfg.capacity := by
    refine (Multiset.le_iff_subset hnodup).mpr fun i hi => ?_
    obtain ⟨y, hy, rfl⟩ := Multiset.mem_map.mp hi
    exact Multiset.mem_range.mpr (resolves_ready h hy).1.2.1
  simpa using Multiset.card_le_card hbelow

theorem Ready.of_regular (h : Reachable (regular Call cfg) x) : Ready cfg x x.ready where
  card := card_ready (.reachable (sized_of_regular h))
  nodup := (Lifecycle.Inv.reachable (sized_of_regular h)).nodup
  queued _ := resolves_ready (.reachable (sized_of_regular h))
  all := (Found.reachable h).queued

end Ready

variable [DecidableEq Thread] [DecidableEq Call] {s : State Thread Call}

section Outstanding
variable {s' : State Thread Call} {a : Act Thread Call} (h : Lifecycle.Inv cfg s.runtime)
  (hzero : s.runtime.outstanding = 0)
include h hzero

omit [DecidableEq Thread] in
theorem outstanding_moved {c : Call} {r : Lifecycle.State Call} (hs : Lifecycle.Step cfg (.step c) s.runtime r) :
    r.outstanding = 0 := by
  obtain ⟨hout, _⟩ | ⟨_, hsub, _⟩ | ⟨t, _, _, _, _, hcounts, _⟩ := h.counted_step hs
  · exact hout.trans hzero
  · have hsame : r.submitted = s.runtime.submitted := by cases hs <;> rfl
    omega
  · have := h.counted hcounts
    omega

/-- At zero, only a thread outside raises `outstanding_`. -/
theorem outstanding_step (hs : Step cfg a s s') (hsubmit : ∀ θ deps, a ≠ .submit θ deps) :
    s'.runtime.outstanding = 0 := by
  cases hs with
  | step _ _ _ hs | poll _ _ _ hs | polls _ _ _ _ hs | waited _ _ _ hs | help _ _ _ hs =>
    exact outstanding_moved h hzero hs
  | returns _ _ _ _ hs =>
    rw [hand_runtime]
    exact outstanding_moved h hzero hs
  | exhausted | wait | waitOutside | waited_all => exact hzero
  | submit => exact absurd rfl (hsubmit _ _)
  | @call _ θ c deps r t hbody =>
    cases hstack : s.stack θ with
    | nil =>
      rw [hstack] at hbody
      cases hbody
    | cons f rest =>
      rw [hstack] at hbody
      obtain ⟨d, hst⟩ := started_of_body h hbody
      have := h.counted (t := t) (by rw [hst]; rfl)
      omega

end Outstanding

/-- Where the threads are part of a system that ends at zero, and nobody submits after its end, `outstanding_`
stays zero. -/
theorem outstanding_of_ended {σ ι : Type*} {S : System σ ι} (threads : σ → State Thread Call) (running : σ → Bool)
    (runs : ι → Option (Act Thread Call)) (hinitial : ∀ x, S.initial x → running x = true)
    (hthreads : ∀ l x y, S.step l x y →
      threads y = threads x ∨ ∃ b, runs l = some b ∧ Step cfg b (threads x) (threads y))
    (hends : ∀ l x y, S.step l x y → running x = true → running y = false →
      runs l = none ∧ (threads x).runtime.outstanding = 0)
    (hsubmit : ∀ l x y, S.step l x y → running x = false → ∀ θ deps, runs l ≠ some (.submit θ deps))
    (hinv : ∀ x, Reachable S x → Lifecycle.Inv cfg (threads x).runtime) {x : σ} (h : Reachable S x)
    (hended : running x = false) : (threads x).runtime.outstanding = 0 := by
  induction h with
  | initial hi => cases (hinitial _ hi).symm.trans hended
  | @step l x y h hs ih =>
    cases hrunning : running x with
    | false =>
      obtain heq | ⟨b, hb, hstep⟩ := hthreads l x y hs
      · exact heq ▸ ih hrunning
      · exact outstanding_step (hinv x h) (ih hrunning) hstep fun θ deps heq => hsubmit l x y hs hrunning θ deps (heq ▸ hb)
    | true =>
      obtain ⟨hnone, hzero⟩ := hends l x y hs hrunning hended
      obtain heq | ⟨b, hb, _⟩ := hthreads l x y hs
      · exact heq ▸ hzero
      · cases hnone.symm.trans hb

/-! ### A task -/

namespace Single

def calls {Worker : Type} : Worker ⊕ Unit ↪ Worker ⊕ Unit := .refl _

def task : TaskHandle := ⟨0, 0⟩

/-- The worker is at `p` with the task, whose body has been called `invoked` times and whose slot has been
released `releases` times. -/
structure Holding (s : State (Fin 1 ⊕ Unit) (Fin 1 ⊕ Unit)) (p : Pc (Fin 1 ⊕ Unit)) (invoked releases : ℕ) : Prop where
  stack : s.stack (.inl 0) = [⟨.inl 0, none⟩]
  pc : s.runtime.pc (.inl 0) = p
  bare : Bare s
  invoked : (s.runtime.sub 0).invoked = invoked
  submitted : s.runtime.submitted = 1
  outstanding : s.runtime.outstanding = 1
  releases : (s.runtime.slots 0).releases = releases

/-- The task has been executed, and has left its slot. -/
structure Executed (s : State (Fin 1 ⊕ Unit) (Fin 1 ⊕ Unit)) : Prop where
  submitted : s.runtime.submitted = 1
  invoked : (s.runtime.sub 0).invoked = 1
  retired : (s.runtime.sub 0).stage = .retired
  outstanding : s.runtime.outstanding = 0
  releases : (s.runtime.slots 0).releases = 1

/-- A thread that is not a worker submits a task (`P`), which is ready (`Q`) until a worker takes it (`R`). -/
theorem offered {P Q R : State (Fin 1 ⊕ Unit) (Fin 1 ⊕ Unit) → Prop} (h0 : P (initial calls))
    (hsubmit : ∀ s a r, P s → Step singleSlot a s r → a.ForkJoin s → a.thread = .inr () →
      r.runtime.ready = s.runtime.ready → P r)
    (henqueue : ∀ s r, P s → s.Offers (.inr ()) task → Step singleSlot (.step (.inr ())) s r →
      Act.ForkJoin (.step (.inr ())) s → r.runtime.ready = task ::ₘ s.runtime.ready → Q r)
    (htake : ∀ s r, Q s → s.Loops (.inl 0) → Step singleSlot (.step (.inl 0)) s r →
      Act.ForkJoin (.step (.inl 0)) s → s.runtime.ready = task ::ₘ r.runtime.ready → R r) :
    (∃ s, Q s ∧ s.runtime.ready = {task} ∧ (s.runtime.sub 0).ended = false) ∧
      ∃ s, R s ∧ Holding s (.claimed task) 0 0 ∧ (s.runtime.slots 0).generation = 0 ∧
        (s.runtime.slots 0).function = some 0 ∧ (s.runtime.slots 0).successors.entries = [] := by
  have hbare : Bare (initial (calls : Fin 1 ⊕ Unit ↪ _)) := ⟨fun _ => rfl, fun _ => rfl⟩
  have h1 := hsubmit _ _ _ h0 (.submit rfl (.submit [] rfl)) (hbare.submit (.inr ())) rfl rfl
  have h2 := hsubmit _ _ _ h1
    (.step rfl rfl (.inr rfl) (.acquire (t := 0) 0 (by rfl) (by decide) (by rfl)) (.inr rfl)
      (fun _ _ hpc => ⟨0, by cases hpc; rfl⟩)) (Bare.step ⟨fun _ => rfl, by rintro (_ | t) <;> rfl⟩ _) rfl rfl
  have h3 := hsubmit _ _ _ h2
    (.step rfl rfl (.inr rfl) (.open_successors (by rfl : _ = Pc.opening 0 0 false)) (.inr rfl)
      (fun _ _ hpc => by cases hpc)) (Bare.step ⟨fun _ => rfl, by rintro (_ | t) <;> rfl⟩ _) rfl rfl
  have h4 := hsubmit _ _ _ h3
    (.step rfl rfl (.inr rfl) (.create (t := 0) (by rfl)) (.inr rfl) (fun _ _ hpc => by cases hpc))
    (Bare.step ⟨fun _ => rfl, by rintro (_ | t) <;> rfl⟩ _) rfl rfl
  have h5 := hsubmit _ _ _ h4
    (.step rfl rfl (.inr rfl) (.publish (t := 0) (by rfl)) (.inr rfl) (fun _ _ hpc => by cases hpc))
    (Bare.step ⟨fun _ => rfl, by rintro (_ | t) <;> rfl⟩ _) rfl rfl
  have h6 := henqueue _ _ h5 ⟨⟨.inr (), none⟩, [], rfl, rfl⟩
    (.step rfl rfl (.inr rfl) (.enqueue_ready (t := 0) (by rfl)) (.inr rfl) (fun _ _ hpc => by cases hpc))
    (Bare.step ⟨fun _ => rfl, by rintro (_ | t) <;> rfl⟩ _) rfl
  have h7 := htake _ _ h6 ⟨⟨.inl 0, none⟩, rfl, rfl⟩
    (.step rfl rfl (.inr rfl) (.dequeue task (by rfl) (Multiset.mem_singleton_self task)) (.inr rfl)
      (fun _ _ hpc => by cases hpc))
    (Bare.step ⟨fun _ => rfl, by rintro (_ | t) <;> rfl⟩ _) rfl
  exact ⟨⟨_, h6, rfl, rfl⟩, _, h7, ⟨rfl, rfl, ⟨fun _ => rfl, by rintro (_ | t) <;> rfl⟩, rfl, rfl, rfl, rfl⟩, rfl, rfl, rfl⟩

section Holding
variable {s : State (Fin 1 ⊕ Unit) (Fin 1 ⊕ Unit)} {p : Pc (Fin 1 ⊕ Unit)} {k l : ℕ}

theorem Holding.busy (h : Holding s p k l) (hp : p ≠ .idle) : ¬s.Loops (.inl 0) := by
  intro hsome
  obtain ⟨f, hf, hidle⟩ := hsome
  cases h.stack.symm.trans hf
  exact hp (h.pc.symm.trans hidle)

/-- The worker goes on to `q`. -/
structure Advances (s x : Lifecycle.State (Fin 1 ⊕ Unit)) (q : Pc (Fin 1 ⊕ Unit)) (invoked releases : ℕ) : Prop where
  step : Lifecycle.Step singleSlot (.step (.inl 0)) s x
  ready : x.ready = s.ready
  pc : x.pc (.inl 0) = q
  dependencies : ∀ t, (x.sub t).dependencies = []
  invoked : (x.sub 0).invoked = invoked
  submitted : x.submitted = 1
  outstanding : x.outstanding = 1
  releases : (x.slots 0).releases = releases

variable {R : State (Fin 1 ⊕ Unit) (Fin 1 ⊕ Unit) → Prop} (hexecute : ∀ s r, R s → ¬s.Loops (.inl 0) →
  Step singleSlot (.step (.inl 0)) s r → Act.ForkJoin (.step (.inl 0)) s → r.runtime.ready = s.runtime.ready → R r)
include hexecute

theorem Holding.continues (h : Holding s p k l) (hR : R s) (hp : p ≠ .idle) (hacquires : ∀ t em, p ≠ .acquiring t em)
    {x : Lifecycle.State (Fin 1 ⊕ Unit)} (hs : Lifecycle.Step singleSlot (.step (.inl 0)) s.runtime x)
    (hready : x.ready = s.runtime.ready) : R (s.after x) :=
  hexecute _ _ hR (h.busy hp) (.step h.stack rfl (.inr rfl) hs (.inr rfl)
    fun t em hpc => absurd (h.pc.symm.trans hpc) (hacquires t em)) (h.bare.step _) hready

theorem Holding.step (h : Holding s p k l) (hR : R s) (hp : p ≠ .idle) (hacquires : ∀ t em, p ≠ .acquiring t em)
    {x : Lifecycle.State (Fin 1 ⊕ Unit)} {q : Pc (Fin 1 ⊕ Unit)} {i j : ℕ} (hs : Advances s.runtime x q i j) :
    Holding (s.after x) q i j ∧ R (s.after x) :=
  ⟨⟨h.stack, hs.pc, ⟨h.bare.own, hs.dependencies⟩, hs.invoked, hs.submitted, hs.outstanding, hs.releases⟩,
    h.continues hexecute hR hp hacquires hs.step hs.ready⟩

theorem Holding.calls (h : Holding s (.claimed task) 0 0) (hR : R s) (hgeneration : (s.runtime.slots 0).generation = 0)
    (hfunction : (s.runtime.slots 0).function = some 0) (hentries : (s.runtime.slots 0).successors.entries = []) :
    ∃ r, R r ∧ Holding r (.completing 0 task []) 1 0 := by
  obtain ⟨h1, hR1⟩ := h.step hexecute hR nofun nofun
    ⟨.execute h.pc ⟨rfl, by decide, hgeneration⟩, rfl, rfl, h.bare.dependencies, h.invoked, h.submitted, h.outstanding, h.releases⟩
  obtain ⟨h2, hR2⟩ := h1.step hexecute hR1 nofun nofun
    ⟨.exchange h1.pc, rfl, rfl, h1.bare.dependencies, h1.invoked, h1.submitted, h1.outstanding, h1.releases⟩
  obtain ⟨h3, hR3⟩ := h2.step hexecute hR2 nofun nofun
    ⟨.call h2.pc hfunction, rfl, rfl, by rintro (_ | t); exacts [h2.bare.dependencies 0, h2.bare.dependencies (t + 1)],
      congrArg (· + 1) h2.invoked, h2.submitted, h2.outstanding, h2.releases⟩
  obtain ⟨h4, hR4⟩ := h3.step hexecute hR3 nofun nofun
    ⟨.ends h3.pc, rfl, rfl, by rintro (_ | t); exacts [h3.bare.dependencies 0, h3.bare.dependencies (t + 1)],
      h3.invoked, h3.submitted, h3.outstanding, h3.releases⟩
  obtain ⟨h5, hR5⟩ := h4.step hexecute hR4 nofun nofun
    ⟨.take_successors h4.pc, rfl, congrArg (Pc.completing 0 task) hentries, h4.bare.dependencies, h4.invoked,
      h4.submitted, h4.outstanding, h4.releases⟩
  exact ⟨_, hR5, h5⟩

theorem Holding.retires (h : Holding s (.completing 0 task []) 1 0) (hR : R s) :
    ∃ r, R r ∧ Executed r := by
  obtain ⟨_, h1, hR1⟩ : ∃ r, Holding r _ _ _ ∧ R r := ⟨_, h.step hexecute hR nofun nofun
    ⟨.complete h.pc, rfl, rfl, by rintro (_ | t); exacts [h.bare.dependencies 0, h.bare.dependencies (t + 1)],
      h.invoked, h.submitted, h.outstanding, h.releases⟩⟩
  obtain ⟨_, h2, hR2⟩ : ∃ r, Holding r _ _ _ ∧ R r := ⟨_, h1.step hexecute hR1 nofun nofun
    ⟨.destroy h1.pc, rfl, rfl, h1.bare.dependencies, h1.invoked, h1.submitted, h1.outstanding, h1.releases⟩⟩
  obtain ⟨_, h3, hR3⟩ : ∃ r, Holding r _ _ _ ∧ R r := ⟨_, h2.step hexecute hR2 nofun nofun
    ⟨.bump h2.pc, rfl, rfl, by rintro (_ | t); exacts [h2.bare.dependencies 0, h2.bare.dependencies (t + 1)],
      h2.invoked, h2.submitted, h2.outstanding, congrArg (· + 1) h2.releases⟩⟩
  obtain ⟨_, h4, hR4⟩ : ∃ r, Holding r _ _ _ ∧ R r := ⟨_, h3.step hexecute hR3 nofun nofun
    ⟨.reset_successors h3.pc, rfl, rfl, h3.bare.dependencies, h3.invoked, h3.submitted, h3.outstanding, h3.releases⟩⟩
  obtain ⟨_, h5, hR5⟩ : ∃ r, Holding r _ _ _ ∧ R r := ⟨_, h4.step hexecute hR4 nofun nofun
    ⟨.storeFree h4.pc, rfl, rfl, h4.bare.dependencies, h4.invoked, h4.submitted, h4.outstanding, h4.releases⟩⟩
  obtain ⟨_, h6, hR6⟩ : ∃ r, Holding r _ _ _ ∧ R r := ⟨_, h5.step hexecute hR5 nofun nofun
    ⟨.list h5.pc, rfl, rfl, h5.bare.dependencies, h5.invoked, h5.submitted, h5.outstanding, h5.releases⟩⟩
  obtain ⟨_, h7, hR7⟩ : ∃ r, Holding r _ _ _ ∧ R r := ⟨_, h6.step hexecute hR6 nofun nofun
    ⟨.looped h6.pc, rfl, rfl, h6.bare.dependencies, h6.invoked, h6.submitted, h6.outstanding, h6.releases⟩⟩
  refine ⟨_, h7.continues hexecute hR7 nofun nofun (.retire h7.pc) rfl, h7.submitted, h7.invoked, rfl, ?_, h7.releases⟩
  show _ - 1 = (0 : ℤ)
  rw [h7.outstanding, sub_self]

end Holding

/-- The worker executes the task, and retires it. -/
theorem executed {P Q R : State (Fin 1 ⊕ Unit) (Fin 1 ⊕ Unit) → Prop} (h0 : P (initial calls))
    (hsubmit : ∀ s a r, P s → Step singleSlot a s r → a.ForkJoin s → a.thread = .inr () →
      r.runtime.ready = s.runtime.ready → P r)
    (henqueue : ∀ s r, P s → s.Offers (.inr ()) task → Step singleSlot (.step (.inr ())) s r →
      Act.ForkJoin (.step (.inr ())) s → r.runtime.ready = task ::ₘ s.runtime.ready → Q r)
    (htake : ∀ s r, Q s → s.Loops (.inl 0) → Step singleSlot (.step (.inl 0)) s r →
      Act.ForkJoin (.step (.inl 0)) s → s.runtime.ready = task ::ₘ r.runtime.ready → R r)
    (hexecute : ∀ s r, R s → ¬s.Loops (.inl 0) → Step singleSlot (.step (.inl 0)) s r →
      Act.ForkJoin (.step (.inl 0)) s → r.runtime.ready = s.runtime.ready → R r) :
    ∃ r, R r ∧ Executed r := by
  obtain ⟨_, s, hR, hholding, hgeneration, hfunction, hentries⟩ := offered h0 hsubmit henqueue htake
  obtain ⟨r, hR, hholding⟩ := hholding.calls hexecute hR hgeneration hfunction hentries
  exact hholding.retires hexecute hR

end Single

end Thunderbolt.Runtime.HelpOnWait
