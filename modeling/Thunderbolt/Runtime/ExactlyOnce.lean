import Thunderbolt.Runtime.Dependencies

/-! Every body runs once, and `outstanding_` counts what is left.

`outstanding_` is raised before a submission exists and lowered as its last act, so
zero means that no submission is anywhere: not with a call, not waiting, not ready.
The counter of a waiting task has 32 bits, and `submit_after` takes any length: from
`2^32` dependencies on it starts too low, and its task can be driven twice. -/
namespace Thunderbolt.Runtime.Lifecycle
open Concurrent

variable {Call : Type} [DecidableEq Call] {cfg : PoolConfig} {s : State Call}

/-- Nothing is left of any submission. -/
structure Quiet (s : State Call) : Prop where
  /-- Each body was called, and has ended, unless it could not be constructed. -/
  done : ∀ t < s.submitted, (s.sub t).threw = true ∨ (s.sub t).invoked = 1 ∧ (s.sub t).ended = true
  ready : s.ready = 0
  waiting : ∀ t, ¬(s.sub t).stage.Waits
  slots : ∀ i, (s.slots i).place = .free

namespace Inv

theorem invoked_le (h : Inv cfg s) {t : ℕ} (ht : t < s.submitted) : (s.sub t).invoked ≤ 1 := by
  have hlog := h.logged t ht
  unfold Logged at hlog
  cases hst : (s.sub t).stage <;> rw [hst] at hlog <;> simp only at hlog <;> omega

/-- A submission that is somewhere counts. -/
theorem counted (h : Inv cfg s) {t : ℕ} (hst : (s.sub t).stage.counts = true) : 0 < s.outstanding := by
  have ht : t < s.submitted := by
    by_contra hle
    rw [(h.fresh t (Nat.le_of_not_lt hle)).1] at hst
    cases hst
  rw [h.outstanding]
  have hpos : 0 < Nat.count (fun u => (s.sub u).stage.counts = true) s.submitted := by
    apply Nat.pos_of_ne_zero
    intro hzero
    exact Nat.count_iff_forall_not.mp hzero t ht hst
  exact_mod_cast hpos

/-- A call with a slot in its hands has a submission. -/
theorem hands_counted (h : Inv cfg s) {c : Call} {i : ℕ} (hi : (s.pc c).hands = some i) :
    ∃ t, (s.sub t).stage.counts = true := by
  have hok := h.ok c
  have hcounts : ∀ {t st}, (s.sub t).stage = st → st.counts = true →
      ∃ t, (s.sub t).stage.counts = true := by
    intro t st hst hc
    exact ⟨t, by rw [hst, hc]⟩
  cases hpc : s.pc c with
  | opening t j em | creating t j =>
    rw [hpc] at hok
    exact hcounts hok.1 rfl
  | constructing t j =>
    rw [hpc] at hok hi
    cases j with
    | none => cases hi
    | some j => exact hcounts hok.1 rfl
  | releasing r j next =>
    rw [hpc] at hok
    have hok : ReleaseOk s c j r next := hok
    cases r <;> cases next <;> exact hcounts hok.1 rfl
  | _ =>
    rw [hpc] at hi
    cases hi

theorem quiet (h : Inv cfg s) (hzero : s.outstanding = 0) : Quiet s := by
  have hnone : ∀ t, (s.sub t).stage = .retired := by
    intro t
    by_contra hst
    have hcount := h.counted (t := t) (by cases hc : (s.sub t).stage <;> first | rfl | exact absurd hc hst)
    omega
  refine ⟨fun t ht => ?_, ?_, fun t hw => ?_, fun i => ?_⟩
  · have hlog := h.logged t ht
    unfold Logged at hlog
    rw [hnone t] at hlog
    exact hlog.imp_left And.right
  · apply Multiset.eq_zero_of_forall_notMem
    intro x hx
    obtain ⟨t, hst, _⟩ := h.ready x hx
    cases (hnone t).symm.trans hst
  · rw [hnone t] at hw
    exact hw
  · cases hplace : (s.slots i).place with
    | free => rfl
    | inHands c =>
      obtain ⟨t, hst⟩ := h.hands_counted (h.hands i c hplace)
      rw [hnone t] at hst
      cases hst
    | held t =>
      have hhold := (h.held i t hplace).2
      rw [hnone t] at hhold
      exact hhold.elim

end Inv

/-! ### Two tasks, the second after the first -/

namespace Pair

def pool : PoolConfig := ⟨2, by show 2 ≤ 0xFFFFFFFF; omega⟩

def first : TaskHandle := ⟨0, 0⟩

def second : TaskHandle := ⟨1, 0⟩

def Kept (P : State Unit → Prop) : Prop := ∀ {s a s'}, P s → Step pool a s s' → a.Plain → P s'

/-- Both have run, in their slots, and have left them. -/
structure Done (s : State Unit) : Prop where
  submitted : s.submitted = 2
  dependencies : (s.sub 1).dependencies = [first]
  issued : (s.sub 0).issued = some (0, 0) ∧ (s.sub 1).issued = some (1, 0)
  invoked : (s.sub 0).invoked = 1 ∧ (s.sub 1).invoked = 1
  retired : (s.sub 0).stage = .retired ∧ (s.sub 1).stage = .retired
  outstanding : s.outstanding = 0
  releases : ∀ i, (s.slots i).releases < word

/-- The second is submitted (`P`), is registered with the first, and runs when that has ended (`Q`). -/
theorem runs {P : State Unit → Prop} (h0 : P initial) (hP : Kept P) :
    ∃ s₀, P s₀ ∧ s₀.pc () = .acquiring 1 false ∧ (s₀.sub 0).issued = some (0, 0) ∧
      ∀ Q : State Unit → Prop, Q s₀ → Kept Q → ∃ s, Q s ∧ Done s := by
  have h := hP h0 (Step.submit (c := ()) [] (by rfl)) (show 0 < word - 1 by decide)
  have h := hP h (Step.acquire (c := ()) 0 (by rfl) (by decide) (by rfl)) trivial
  have h := hP h (Step.open_successors (c := ()) (by rfl)) trivial
  have h := hP h (Step.create (c := ()) (by rfl)) trivial
  have h := hP h (Step.publish (c := ()) (by rfl)) trivial
  have h := hP h (Step.enqueue_ready (c := ()) (by rfl)) trivial
  have h := hP h (Step.submit (c := ()) [first] (by rfl)) (show 1 < word - 1 by decide)
  refine ⟨_, h, by rfl, by rfl, fun Q h hQ => ?_⟩
  have h := hQ h (Step.acquire (c := ()) 1 (by rfl) (by decide) (by rfl)) trivial
  have h := hQ h (Step.open_successors (c := ()) (by rfl)) trivial
  have h := hQ h (Step.create (c := ()) (by rfl)) trivial
  have h := hQ h (Step.storeWaiting (c := ()) (t := 1) (h := second) (by rfl)) trivial
  have h := hQ h (Step.storePending (c := ()) (t := 1) (h := second) (by rfl)) trivial
  have h := hQ h (Step.lookup (c := ()) (t := 1) (h := second) (k := 0) (d := first) (by rfl) (by rfl)
    ⟨rfl, by decide, by rfl⟩) trivial
  have h := hQ h (Step.add (c := ()) (t := 1) (h := second) (k := 0) (d := first) (by rfl) (by rfl) (by rfl)) trivial
  have h := hQ h (Step.unguard (c := ()) (t := 1) (h := second) (by rfl) (by exact Nat.succ_ne_self 1)) trivial
  -- The first runs, and finds the second registered.
  have h := hQ h (Step.dequeue (c := ()) first (by rfl) (by exact Multiset.mem_cons_self first 0)) trivial
  have h := hQ h (Step.execute (c := ()) (by rfl) ⟨rfl, by decide, by rfl⟩) trivial
  have h := hQ h (Step.exchange (c := ()) (by rfl)) trivial
  have h := hQ h (Step.call (c := ()) (by rfl) (by rfl)) trivial
  have h := hQ h (Step.ends (c := ()) (by rfl)) trivial
  have h := hQ h (Step.take_successors (c := ()) (by rfl)) trivial
  have h := hQ h (Step.complete (c := ()) (by rfl)) trivial
  have h := hQ h (Step.destroy (c := ()) (by rfl)) trivial
  have h := hQ h (Step.bump (c := ()) (by rfl)) trivial
  have h := hQ h (Step.reset_successors (c := ()) (by rfl)) trivial
  have h := hQ h (Step.storeFree (c := ()) (by rfl)) trivial
  have h := hQ h (Step.list (c := ()) (by rfl)) trivial
  have h := hQ h (Step.dependent (c := ()) (t := 0) (d := second) (e := ⟨1, 0⟩) (by rfl) ⟨rfl, by decide, by rfl⟩) trivial
  have h := hQ h (Step.subtractLast (c := ()) (d := second) (by rfl) (by rfl)) trivial
  have h := hQ h (Step.drive (c := ()) (by rfl)) trivial
  have h := hQ h (Step.pass (c := ()) (by rfl)) trivial
  have h := hQ h (Step.looped (c := ()) (by rfl)) trivial
  have h := hQ h (Step.retire (c := ()) (by rfl)) trivial
  -- The second runs.
  have h := hQ h (Step.dequeue (c := ()) second (by rfl)
    (by exact Multiset.mem_cons_self second ((first ::ₘ 0).erase first))) trivial
  have h := hQ h (Step.execute (c := ()) (by rfl) ⟨rfl, by decide, by rfl⟩) trivial
  have h := hQ h (Step.exchange (c := ()) (by rfl)) trivial
  have h := hQ h (Step.call (c := ()) (by rfl) (by rfl)) trivial
  have h := hQ h (Step.ends (c := ()) (by rfl)) trivial
  have h := hQ h (Step.take_successors (c := ()) (by rfl)) trivial
  have h := hQ h (Step.complete (c := ()) (by rfl)) trivial
  have h := hQ h (Step.destroy (c := ()) (by rfl)) trivial
  have h := hQ h (Step.bump (c := ()) (by rfl)) trivial
  have h := hQ h (Step.reset_successors (c := ()) (by rfl)) trivial
  have h := hQ h (Step.storeFree (c := ()) (by rfl)) trivial
  have h := hQ h (Step.list (c := ()) (by rfl)) trivial
  have h := hQ h (Step.looped (c := ()) (by rfl)) trivial
  have h := hQ h (Step.retire (c := ()) (by rfl)) trivial
  refine ⟨_, h, by rfl, by rfl, ⟨by rfl, by rfl⟩, ⟨by rfl, by rfl⟩, ⟨by rfl, by rfl⟩, by rfl, ?_⟩
  rintro (_ | _ | i)
  exacts [(by decide : 1 < word), (by decide : 1 < word), (by decide : 0 < word)]

end Pair

/-! ### Over every run -/

/-- **While dependency lists have fewer than `2^32` entries: no body is called twice,
`outstanding_` is the number of submissions not yet subtracted from it, and at zero
nothing is left.** -/
theorem exactly_once (h : Reachable ((system Call cfg).restrict fun a _ => a.Sized) s) :
    (∀ t < s.submitted, (s.sub t).invoked ≤ 1) ∧
      s.outstanding = Nat.count (fun t => (s.sub t).stage ≠ .retired) s.submitted ∧
      (s.outstanding = 0 → Quiet s) := by
  have hinv := Inv.reachable h
  refine ⟨fun t => hinv.invoked_le, ?_, hinv.quiet⟩
  rw [hinv.outstanding]
  refine congrArg Nat.cast (natCount_congr fun t _ => ?_)
  cases (s.sub t).stage <;> simp [Stage.counts]

open Pair in
/-- The second of two tasks has waited for the first. -/
theorem exactly_once_pair : ∃ s : State Unit, Reachable (sized Unit pool) s ∧ Done s ∧ Quiet s := by
  have hkept : Kept (Reachable (sized Unit pool)) := fun h hs hplain => h.step ⟨hs, hplain.sized⟩
  obtain ⟨s₀, h₀, _, _, hruns⟩ := runs (.initial rfl) hkept
  obtain ⟨s, h, hdone⟩ := hruns _ h₀ hkept
  exact ⟨s, h, hdone, (exactly_once h).2.2 hdone.outstanding⟩

/-! ### A dependency list of length `2^32` -/

namespace Overflow

/-- A user's call, and two workers. -/
abbrev Caller := Fin 3

def pool : PoolConfig := ⟨2, by show 2 ≤ 0xFFFFFFFF; omega⟩

/-- The handle of the predecessor, and that of the task that depends on it. -/
def first : TaskHandle := ⟨0, 0⟩

def second : TaskHandle := ⟨1, 0⟩

/-- One live handle, and `2^32 - 1` invalid ones. -/
def dependencies : List TaskHandle := first :: List.replicate (word - 1) .none

theorem dependencies_length : dependencies.length = word := by
  unfold dependencies
  rw [List.length_cons, List.length_replicate]
  unfold word
  omega

theorem dependencies_get {k : ℕ} (hk : 0 < k) (hlt : k < word) : dependencies[k]? = some .none := by
  obtain ⟨j, rfl⟩ : ∃ j, k = j + 1 := ⟨k - 1, by omega⟩
  unfold dependencies
  rw [List.getElem?_cons_succ, List.getElem?_replicate, if_pos (by omega)]

/-- The predecessor runs, and the counter of the dependent is about to be stored. -/
structure Counting (s : State Caller) : Prop where
  user : s.pc 0 = .counting 1 second
  worker : s.pc 1 = .running 0 first
  other : s.pc 2 = .idle
  ready : s.ready = 0
  generations : (s.slots 0).generation = 0 ∧ (s.slots 1).generation = 0
  successors : (s.slots 0).successors.closed = false ∧ (s.slots 0).successors.entries = []
  place : (s.slots 1).place = .held 1
  function : (s.slots 1).function = some 1
  dependencies : (s.sub 1).dependencies = dependencies
  invoked : (s.sub 1).invoked = 0
  submitted : s.submitted = 2
  fresh : (s.slots 1).releases = 0 ∧ (s.slots 1).successors.entries = []

/-- The dependent is registered, its counter is one, and the predecessor is at `p`. -/
structure Registered (p : Pc Caller) (s : State Caller) : Prop where
  user : s.pc 0 = .registering 1 second 1
  worker : s.pc 1 = p
  other : s.pc 2 = .idle
  ready : s.ready = 0
  generation : (s.slots 1).generation = 0
  pending : (s.slots 1).pending_dependencies = 1
  place : (s.slots 1).place = .held 1
  function : (s.slots 1).function = some 1
  dependencies : (s.sub 1).dependencies = dependencies
  invoked : (s.sub 1).invoked = 0
  submitted : s.submitted = 2
  fresh : (s.slots 1).releases = 0 ∧ (s.slots 1).successors.entries = []

/-- The predecessor has driven the dependent; `k` dependencies are processed. -/
structure Driven (k : ℕ) (s : State Caller) : Prop where
  user : s.pc 0 = .registering 1 second k
  worker : s.pc 1 = .idle
  other : s.pc 2 = .idle
  ready : s.ready = {second}
  generation : (s.slots 1).generation = 0
  pending : (s.slots 1).pending_dependencies = (word - (k - 1)) % word
  place : (s.slots 1).place = .held 1
  function : (s.slots 1).function = some 1
  dependencies : (s.sub 1).dependencies = dependencies
  invoked : (s.sub 1).invoked = 0
  submitted : s.submitted = 2
  fresh : (s.slots 1).releases = 0 ∧ (s.slots 1).successors.entries = []

/-- The dependent is enqueued twice. -/
structure Doubled (s : State Caller) : Prop where
  user : s.pc 0 = .idle
  worker : s.pc 1 = .idle
  other : s.pc 2 = .idle
  ready : s.ready = {second, second}
  generation : (s.slots 1).generation = 0
  place : (s.slots 1).place = .held 1
  function : (s.slots 1).function = some 1
  invoked : (s.sub 1).invoked = 0
  submitted : s.submitted = 2
  fresh : (s.slots 1).releases = 0 ∧ (s.slots 1).successors.entries = []

/-- No destructor runs other tasks. -/
abbrev Run (s : State Caller) : Prop :=
  Reachable ((system Caller pool).restrict fun a _ => ∀ c, a ≠ .reenter c) s

variable {s s' : State Caller} {c : Caller}

theorem Run.submit {deps : List TaskHandle} (h : Run s) (hs : Step pool (.submit c deps) s s') : Run s' :=
  Reachable.step h ⟨hs, fun _ => nofun⟩

theorem Run.step (h : Run s) (hs : Step pool (.step c) s s') : Run s' :=
  Reachable.step h ⟨hs, fun _ => nofun⟩

theorem counting : ∃ s, Run s ∧ Counting s := by
  have h0 : Run (initial : State Caller) := .initial rfl
  have h1 := h0.submit (Step.submit (c := 0) [] (by rfl))
  have h2 := h1.step (Step.acquire (c := 0) 0 (by rfl) (by decide) (by rfl))
  have h3 := h2.step (Step.open_successors (c := 0) (by rfl))
  have h4 := h3.step (Step.create (c := 0) (by rfl))
  have h5 := h4.step (Step.publish (c := 0) (by rfl))
  have h6 := h5.step (Step.enqueue_ready (c := 0) (by rfl))
  have h7 := h6.step (Step.dequeue (c := 1) first (by rfl) (by exact Multiset.mem_cons_self first 0))
  have h8 := h7.step (Step.execute (c := 1) (by rfl) ⟨rfl, by decide, by rfl⟩)
  have h9 := h8.step (Step.exchange (c := 1) (by rfl))
  have h10 := h9.step (Step.call (c := 1) (by rfl) (by rfl))
  -- The predecessor runs, and the dependent is submitted.
  have h11 := h10.submit (Step.submit (c := 0) dependencies (by rfl))
  have h12 := h11.step (Step.acquire (c := 0) 1 (by rfl) (by decide) (by rfl))
  have h13 := h12.step (Step.open_successors (c := 0) (by rfl))
  have h14 := h13.step (Step.create (c := 0) (by rfl))
  have h15 := h14.step (Step.storeWaiting (c := 0) (t := 1) (h := second) (by rfl))
  exact ⟨_, h15, by rfl, by rfl, by rfl, by rfl, ⟨by rfl, by rfl⟩, ⟨by rfl, by rfl⟩, by rfl, by rfl,
    by rfl, by rfl, by rfl, ⟨by rfl, by rfl⟩⟩

theorem counter_starts : (dependencies.length % word + 1) % word = 1 := by
  rw [dependencies_length, Nat.mod_self]
  rfl

theorem dependencies_head : dependencies[0]? = some first := rfl

theorem registered (h : Run s) (hs : Counting s) : ∃ s, Run s ∧ Registered (.running 0 first) s ∧
    (s.slots 0).successors.entries = [(second, ⟨1, 0⟩)] := by
  have h1 := h.step (Step.storePending hs.user)
  rw [hs.dependencies, counter_starts] at h1
  have h2 := h1.step (Step.lookup (c := 0) (t := 1) (h := second) (k := 0) (d := first) (by simp)
    (by simp [hs.dependencies, dependencies_head, second])
    ⟨rfl, by decide, by simp [first, second, hs.generations.1]⟩)
  have h3 := h2.step (Step.add (c := 0) (t := 1) (h := second) (k := 0) (d := first)
    (l := (s.slots 0).successors.push (second, ⟨1, 0⟩)) (by simp)
    (by simp [hs.dependencies, dependencies_head, second])
    (by simp [Successors.tryAdd, first, second, hs.successors.1, hs.generations.1]))
  refine ⟨_, h3, ⟨?_, ?_, ?_, ?_, ?_, ?_, ?_, ?_, ?_, ?_, hs.submitted, ?_⟩, ?_⟩
  · simp
  · simp [hs.worker]
  · simp [hs.other]
  · simp [hs.ready]
  · simp [first, second, hs.generations.2]
  · simp [first, second]
  · simp [first, second, hs.place]
  · simp [first, second, hs.function]
  · simp [hs.dependencies]
  · simp [hs.invoked]
  · simp [first, second, hs.fresh]
  · simp [first, second, Successors.entries_push, hs.successors.2]

theorem completing (h : Run s) (hs : Registered (.running 0 first) s)
    (hl : (s.slots 0).successors.entries = [(second, ⟨1, 0⟩)]) :
    ∃ s, Run s ∧ Registered (.completing 0 first [(second, ⟨1, 0⟩)]) s := by
  have h1 := h.step (Step.ends hs.worker)
  have h2 := h1.step (Step.take_successors (c := 1) (t := 0) (h := first) (by simp))
  refine ⟨_, h2, ?_, ?_, ?_, ?_, ?_, ?_, ?_, ?_, ?_, ?_, hs.submitted, ?_⟩
  · simp [hs.user]
  · simpa [first] using hl
  · simp [hs.other]
  · simp [hs.ready]
  · simp [first, hs.generation]
  · simp [first, hs.pending]
  · simp [first, hs.place]
  · simp [first, hs.function]
  · simp [hs.dependencies]
  · simp [hs.invoked]
  · simp [first, hs.fresh]

theorem lowered_one : lowered 1 = 0 := by
  unfold lowered
  rw [show 1 + (word - 1) = word from rfl, Nat.mod_self]

/-- The predecessor finds the counter at one. -/
theorem driven (h : Run s) (hs : Registered (.completing 0 first [(second, ⟨1, 0⟩)]) s) :
    ∃ s, Run s ∧ Driven 1 s := by
  have h1 := h.step (Step.complete hs.worker)
  have h2 := h1.step (Step.destroy (c := 1) (by rfl))
  have h3 := h2.step (Step.bump (c := 1) (by rfl))
  have h4 := h3.step (Step.reset_successors (c := 1) (by rfl))
  have h5 := h4.step (Step.storeFree (c := 1) (by rfl))
  have h6 := h5.step (Step.list (c := 1) (by rfl))
  have h7 := h6.step (Step.dependent (c := 1) (t := 0) (d := second) (e := ⟨1, 0⟩)
    (by rfl) ⟨rfl, by decide, hs.generation⟩)
  have h8 := h7.step (Step.subtractLast (c := 1) (d := second) (by rfl) hs.pending)
  have h9 := h8.step (Step.drive (c := 1) (by rfl))
  have h10 := h9.step (Step.pass (c := 1) (by rfl))
  have h11 := h10.step (Step.looped (c := 1) (by rfl))
  have h12 := h11.step (Step.retire (c := 1) (by rfl))
  refine ⟨_, h12, ?_, ?_, ?_, ?_, ?_, ?_, ?_, ?_, ?_, ?_, hs.submitted, ?_⟩
  · exact hs.user
  · rfl
  · exact hs.other
  · simp [hs.ready]
  · simp [first, second, hs.generation]
  · simp [first, second, hs.pending, lowered_one]
  · simp [first, second, hs.place]
  · simp [first, second, hs.function]
  · exact hs.dependencies
  · exact hs.invoked
  · simp [first, second, hs.fresh]

/-- One of the invalid handles. -/
theorem driven_step {k : ℕ} (hk : 0 < k) (hlt : k < word) (h : Run s) (hs : Driven k s) :
    ∃ s, Run s ∧ Driven (k + 1) s := by
  have hd := dependencies_get hk hlt
  have h1 := h.step (Step.stale (d := .none) hs.user (by rw [hs.dependencies, hd]) (fun hr => by cases hr.1))
  have h2 := h1.step (Step.settle (c := 0) (by rfl))
  refine ⟨_, h2, ?_, ?_, ?_, ?_, ?_, ?_, ?_, ?_, ?_, ?_, hs.submitted, ?_⟩
  · rfl
  · exact hs.worker
  · exact hs.other
  · exact hs.ready
  · simp [second, hs.generation]
  · have hnext : lowered ((word - (k - 1)) % word) = (word - (k + 1 - 1)) % word := by
      rw [Inv.lowered_mod (by omega), show word - (k - 1) - 1 = word - (k + 1 - 1) by omega]
    simp only [State.pcAt, State.edgeAt, State.slotAt, second, Function.update_self]
    rw [hs.pending, hnext]
  · simp [second, hs.place]
  · simp [second, hs.function]
  · exact hs.dependencies
  · exact hs.invoked
  · simp [second, hs.fresh]

/-- All of them. -/
theorem driven_all {k : ℕ} (hk : k < word) : ∃ s, Run s ∧ Driven (k + 1) s := by
  induction k with
  | zero =>
    obtain ⟨s, h, hs⟩ := counting
    obtain ⟨s, h, hs, hl⟩ := registered h hs
    obtain ⟨s, h, hs⟩ := completing h hs hl
    exact driven h hs
  | succ k ih =>
    obtain ⟨s, h, hs⟩ := ih (by omega)
    exact driven_step (by omega) (by omega) h hs

theorem doubled : ∃ s, Run s ∧ Doubled s := by
  obtain ⟨s, h, hs⟩ := driven_all (k := word - 1) (by decide)
  have hlen : (s.sub 1).dependencies.length = word := by rw [hs.dependencies, dependencies_length]
  have hone : (s.slots 1).pending_dependencies = 1 := by
    rw [hs.pending]
    decide
  have h1 := h.step (Step.unguardLast (t := 1) (h := second) (by rw [hs.user, hlen]; rfl) hone)
  have h2 := h1.step (Step.publish (c := 0) (by rfl))
  have h3 := h2.step (Step.enqueue_ready (c := 0) (by rfl))
  refine ⟨_, h3, by rfl, hs.worker, hs.other, ?_, ?_, ?_, ?_, hs.invoked, hs.submitted, ?_⟩
  · simp [hs.ready]
  · simp [second, hs.generation]
  · simp [second, hs.place]
  · simp [second, hs.function]
  · simp [second, hs.fresh]

/-- Both workers call the body. -/
structure Both (s : State Caller) : Prop where
  user : s.pc 0 = .idle
  worker : s.pc 1 = .running 1 second
  other : s.pc 2 = .running 1 second
  ready : s.ready = 0
  generation : (s.slots 1).generation = 0
  invoked : (s.sub 1).invoked = 2
  submitted : s.submitted = 2
  fresh : (s.slots 1).releases = 0 ∧ (s.slots 1).successors.entries = []

theorem both : ∃ s, Run s ∧ Both s := by
  obtain ⟨s, h, hs⟩ := doubled
  have h1 := h.step (Step.dequeue (c := 1) second hs.worker (by simp [hs.ready]))
  have h2 := h1.step (Step.execute (c := 1) (h := second) (by rfl) ⟨rfl, by decide, hs.generation⟩)
  have h3 := h2.step (Step.exchange (c := 1) (by rfl))
  have h4 := h3.step (Step.call (c := 1) (t := 1) (h := second) (by rfl) (by simp [second, hs.function]))
  have h5 := h4.step (Step.dequeue (c := 2) second hs.other (by simp [hs.ready]))
  have h6 := h5.step (Step.execute (c := 2) (h := second) (by rfl)
    ⟨rfl, by decide, by simp [second, hs.generation]⟩)
  have h7 := h6.step (Step.exchange (c := 2) (by rfl))
  have h8 := h7.step (Step.call (c := 2) (t := 1) (h := second) (by rfl) (by simp [second, hs.function]))
  refine ⟨_, h8, hs.user, by rfl, by rfl, ?_, ?_, ?_, hs.submitted, ?_⟩
  · simp [hs.ready]
  · simp [second, hs.generation]
  · simp [State.claim, second, hs.place, hs.invoked]
  · simp [second, hs.fresh]

end Overflow

/-- A dependency list of `2^32` entries, of which the first is a live predecessor: the
body is called twice. -/
theorem exactly_once_overflow : ¬∀ s, Reachable (system (Fin 3) Overflow.pool) s →
    ∀ t < s.submitted, (s.sub t).invoked ≤ 1 := by
  intro hall
  obtain ⟨s, h, hs⟩ := Overflow.both
  have hle := hall s h.of_restrict 1 (by rw [hs.submitted]; decide)
  rw [hs.invoked] at hle
  omega

end Thunderbolt.Runtime.Lifecycle
