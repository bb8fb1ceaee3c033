import Thunderbolt.Graph.TaskGraph
import Thunderbolt.Runtime.ExactlyOnce

/-! Bodies on their way to being called.

A body is moved out of the descriptor it came in, or out of a graph's node, into a slot or into
`run_inline`, and leaves an empty `TaskFunction` behind. `execute` calls what is in the slot, and
does not ask; `run_inline` asks. The lifecycle knows a body by the number of its submission;
here is what came with that number, over any sequence of calls.

To call an empty `TaskFunction` is undefined, and has no step. -/
namespace Thunderbolt.Graph.Resubmit
open Concurrent TaskGraph
open Runtime.Lifecycle (PoolConfig)

/-- A call of `TaskGraph::submit` in progress. -/
structure Loop where
  graph : ℕ
  /-- The nodes still to be submitted. -/
  order : List ℕ
  handles : ℕ → TaskHandle
  /-- The node `submit_after` has been called for, and has not returned. -/
  node : Option ℕ

structure State (Call Body : Type) where
  runtime : Runtime.Lifecycle.State Call
  /-- What came with a submission; an empty `TaskFunction` is `none`. -/
  passed : ℕ → Option Body
  graphs : ℕ → TaskGraph (Option Body)
  loop : Call → Option Loop

inductive Act (Call Body : Type) where
  /-- `submit` and `submit_after`. -/
  | submit (c : Call) (dependencies : List TaskHandle) (function : Option Body)
  | submit_emplace (c : Call) (function : Body)
  /-- A step of the runtime. -/
  | step (c : Call)
  | reenter (c : Call)
  | build (graph : ℕ) (a : Build (Option Body))
  /-- `TaskGraph::submit` is called, on its own or by `submit_and_wait`. -/
  | begin (c : Call) (graph : ℕ)
  /-- It calls `submit_after`. -/
  | node (c : Call)
  | finish (c : Call)

variable {Call Body : Type} [DecidableEq Call]

/-- The `TaskFunction` of a node. -/
def function (g : TaskGraph (Option Body)) (id : ℕ) : Option Body := (g.nodes[id]?.bind Node.desc)

/-- `std::move(node.desc)`. -/
def moved (g : TaskGraph (Option Body)) (id : ℕ) : TaskGraph (Option Body) :=
  {g with nodes := g.nodes.modify id fun node => {node with desc := none}}

namespace State

/-- `valid()`, of the `TaskFunction` in a slot. -/
def Valid (s : State Call Body) (i : ℕ) : Prop :=
  ∃ t, (s.runtime.slots i).function = some t ∧ s.passed t ≠ none

/-- A submission is made, with this body. -/
@[simp] def pass (s : State Call Body) (r : Runtime.Lifecycle.State Call) (function : Option Body) :
    State Call Body :=
  {s with runtime := r, passed := Function.update s.passed s.runtime.submitted function}

@[simp] def loopAt (s : State Call Body) (c : Call) (l : Option Loop) : State Call Body :=
  {s with loop := Function.update s.loop c l}

end State

inductive Step (cfg : PoolConfig) : Act Call Body → State Call Body → State Call Body → Prop where
  | submit {s c deps r} (function : Option Body) : s.loop c = none →
      Runtime.Lifecycle.Step cfg (.submit c deps) s.runtime r →
      r.pc c = .acquiring s.runtime.submitted false →
      Step cfg (.submit c deps function) s (s.pass r function)
  | submit_emplace {s c r} (function : Body) : s.loop c = none →
      Runtime.Lifecycle.Step cfg (.submit c []) s.runtime r →
      r.pc c = .acquiring s.runtime.submitted true →
      Step cfg (.submit_emplace c function) s (s.pass r (some function))
  | step {s c r} : s.loop c = none → Runtime.Lifecycle.Step cfg (.step c) s.runtime r →
      (∀ h, s.runtime.pc c = .calling h → s.Valid h.index) →
      Step cfg (.step c) s {s with runtime := r}
  | inside {s c l id r} : s.loop c = some l → l.node = some id →
      Runtime.Lifecycle.Step cfg (.step c) s.runtime r → r.pc c ≠ .idle →
      Step cfg (.step c) s {s with runtime := r}
  | returns {s c l id r} : s.loop c = some l → l.node = some id →
      Runtime.Lifecycle.Step cfg (.step c) s.runtime r → r.pc c = .idle →
      Step cfg (.step c) s
        ({s with runtime := r}.loopAt c (some {l with
          handles := Function.update l.handles id (s.runtime.pc c).handle, node := none}))
  | reenter {s c r} : Runtime.Lifecycle.Step cfg (.reenter c) s.runtime r →
      Step cfg (.reenter c) s {s with runtime := r}
  | build {s k a g} : BuildStep a (s.graphs k) g →
      Step cfg (.build k a) s {s with graphs := Function.update s.graphs k g}
  | begin {s c k order} : s.loop c = none → s.runtime.pc c = .idle →
      Returns (s.graphs k).topological_order order →
      Step cfg (.begin c k) s (s.loopAt c (some ⟨k, order, fun _ => .none, none⟩))
  | node {s c l id order r} : s.loop c = some l → l.node = none → l.order = id :: order →
      Runtime.Lifecycle.Step cfg (.submit c (((s.graphs l.graph).predecessors id).map l.handles))
        s.runtime r →
      r.pc c = .acquiring s.runtime.submitted false →
      Step cfg (.node c) s
        ({s.pass r (function (s.graphs l.graph) id) with
          graphs := Function.update s.graphs l.graph (moved (s.graphs l.graph) id)}.loopAt c
            (some {l with order, node := some id}))
  | finish {s c l} : s.loop c = some l → l.node = none → l.order = [] →
      Step cfg (.finish c) s (s.loopAt c none)

def initial : State Call Body :=
  ⟨Runtime.Lifecycle.initial, fun _ => none, fun _ => empty, fun _ => none⟩

def system (Call Body : Type) [DecidableEq Call] (cfg : PoolConfig) :
    System (State Call Body) (Act Call Body) :=
  ⟨fun s => s = initial, Step cfg⟩

/-- Each call of the runtime comes with a body, and with fewer than `2 ^ 32` dependencies. -/
def Act.Full : Act Call Body → State Call Body → Prop
  | .submit _ deps function, _ => function ≠ none ∧ deps.length < word
  | .node c, s => ∀ l id order, s.loop c = some l → l.order = id :: order →
      function (s.graphs l.graph) id ≠ none ∧ ((s.graphs l.graph).predecessors id).length < word
  | _, _ => True

/-- No empty body is called, and none is left uncalled. -/
structure NeverEmpty (s : State Call Body) : Prop where
  pooled : ∀ c h, s.runtime.pc c = .calling h → s.Valid h.index
  inlined : ∀ c t, s.runtime.pc c = .inlining t → s.passed t ≠ none

variable {cfg : PoolConfig} {a : Act Call Body} {s s' : State Call Body} {c : Call}
  {r : Runtime.Lifecycle.State Call}

/-! ### What a step does to the runtime -/

/-- Only a call that submits makes a submission. -/
theorem submitted_step {x r : Runtime.Lifecycle.State Call} {b : Runtime.Lifecycle.Act Call}
    (h : Runtime.Lifecycle.Step cfg b x r) :
    r.submitted = x.submitted ∨ r.submitted = x.submitted + 1 ∧ ∃ deps, b = .submit b.call deps := by
  cases h
  case submit deps _ | submit_emplace => exact .inr ⟨rfl, _, rfl⟩
  all_goals exact .inl rfl

/-- The runtime is left as it is or takes a step, and what is submitted has a body. -/
theorem runtime_step (hs : Step cfg a s s') (hfull : a.Full s) :
    s'.runtime = s.runtime ∧ s'.passed = s.passed ∨
      ∃ b, Runtime.Lifecycle.Step cfg b s.runtime s'.runtime ∧ b.Sized ∧
        ((∀ deps, b ≠ .submit b.call deps) ∧ s'.passed = s.passed ∨
          ∃ function, function ≠ none ∧
            s'.passed = Function.update s.passed s.runtime.submitted function) := by
  cases hs with
  | submit function _ hr _ => exact .inr ⟨_, hr, hfull.2, .inr ⟨function, hfull.1, rfl⟩⟩
  | submit_emplace function _ hr _ =>
    exact .inr ⟨_, hr, Nat.two_pow_pos 32, .inr ⟨some function, Option.some_ne_none _, rfl⟩⟩
  | node hl _ horder hr _ =>
    obtain ⟨hbody, hlength⟩ := hfull _ _ _ hl horder
    exact .inr ⟨_, hr, by simpa [Runtime.Lifecycle.Act.Sized] using hlength, .inr ⟨_, hbody, rfl⟩⟩
  | step _ hr _ | inside _ _ hr _ | returns _ _ hr _ | reenter hr =>
    exact .inr ⟨_, hr, trivial, .inl ⟨nofun, rfl⟩⟩
  | build _ | begin _ _ _ | finish _ _ _ => exact .inl ⟨rfl, rfl⟩

theorem runtime_reachable (h : Reachable ((system Call Body cfg).restrict Act.Full) s) :
    Reachable (Runtime.Lifecycle.sized Call cfg) s.runtime := by
  induction h with
  | initial hs =>
    subst hs
    exact .initial rfl
  | step _ hs ih =>
    obtain ⟨hr, _⟩ | ⟨b, hr, hsized, _⟩ := runtime_step hs.1 hs.2
    · rwa [hr]
    · exact ih.step ⟨hr, hsized⟩

/-- Every submission came with a body. -/
theorem passed_reachable (h : Reachable ((system Call Body cfg).restrict Act.Full) s) :
    ∀ t < s.runtime.submitted, s.passed t ≠ none := by
  induction h with
  | initial hs =>
    subst hs
    exact fun t ht => absurd ht (Nat.not_lt_zero t)
  | @step _ s s' _ hs ih =>
    intro t ht
    obtain ⟨hr, hpassed⟩ | ⟨b, hr, _, ⟨hb, hpassed⟩ | ⟨function, hbody, hpassed⟩⟩ := runtime_step hs.1 hs.2
    · rw [hr] at ht
      exact hpassed ▸ ih t ht
    · obtain hsub | ⟨_, deps, hdeps⟩ := submitted_step hr
      · rw [hsub] at ht
        exact hpassed ▸ ih t ht
      · exact absurd hdeps (hb deps)
    · rw [hpassed]
      by_cases htop : t = s.runtime.submitted
      · rwa [htop, Function.update_self]
      · rw [Function.update_of_ne htop]
        obtain hsub | ⟨hsub, _⟩ := submitted_step hr <;> exact ih t (by omega)

/-- **No empty body is called**, in runs in which each call of the runtime is given one. -/
theorem never_empty (h : Reachable ((system Call Body cfg).restrict Act.Full) s) : NeverEmpty s := by
  have hinv := Runtime.Lifecycle.Inv.reachable (runtime_reachable h)
  have hlt : ∀ {t : ℕ} {st : Runtime.Lifecycle.Stage Call}, (s.runtime.sub t).stage = st → st ≠ .retired →
      t < s.runtime.submitted := by
    intro t st hst hne
    by_contra hge
    exact hne (hst ▸ (hinv.fresh t (Nat.not_lt.mp hge)).1)
  refine ⟨fun c x hpc => ?_, fun c t hpc => ?_⟩
  · obtain ⟨t, hst, hof⟩ := hinv.at_pc hpc
    have hplace := hinv.place hof (by rw [hst]; trivial)
    exact ⟨t, hinv.function x.index t hplace (by rw [hst]; trivial),
      passed_reachable h t (hlt hst nofun)⟩
  · exact passed_reachable h t (hlt (hinv.at_pc hpc) nofun)

/-! ### Runs of a user (`false`) and a worker (`true`) -/

theorem pool_fits : 2 ≤ TaskHandle.kInvalidIndex := by decide

def pool : PoolConfig := ⟨2, pool_fits⟩

/-- A body is passed, and the worker gets to it. -/
theorem never_empty_passed : ∃ s : State Bool Unit,
    Reachable ((system Bool Unit pool).restrict Act.Full) s ∧ s.runtime.pc true = .calling ⟨0, 0⟩ ∧ NeverEmpty s := by
  have h : Reachable ((system Bool Unit pool).restrict Act.Full) initial := .initial rfl
  have h1 := h.step ⟨.submit (c := false) (some ()) (by rfl)
    (Runtime.Lifecycle.Step.submit (c := false) [] (by rfl)) (by rfl), by decide, by decide⟩
  have h2 := h1.step ⟨.step (c := false) (by rfl) (.acquire 0 (by rfl) (by decide) (by rfl))
    (by intro h heq; cases heq), trivial⟩
  have h3 := h2.step ⟨.step (c := false) (by rfl) (.open_successors (by rfl)) (by intro h heq; cases heq), trivial⟩
  have h4 := h3.step ⟨.step (c := false) (by rfl) (.create (by rfl)) (by intro h heq; cases heq), trivial⟩
  have h5 := h4.step ⟨.step (c := false) (by rfl) (.publish (by rfl)) (by intro h heq; cases heq), trivial⟩
  have h6 := h5.step ⟨.step (c := false) (by rfl) (.enqueue_ready (by rfl)) (by intro h heq; cases heq), trivial⟩
  have h7 := h6.step ⟨.step (c := true) (by rfl) (.dequeue ⟨0, 0⟩ (by rfl) (by decide))
    (by intro h heq; cases heq), trivial⟩
  have h8 := h7.step ⟨.step (c := true) (by rfl) (.execute (by rfl) ⟨rfl, by decide, by rfl⟩)
    (by intro h heq; cases heq), trivial⟩
  have h9 := h8.step ⟨.step (c := true) (by rfl) (.exchange (by rfl)) (by intro h heq; cases heq), trivial⟩
  exact ⟨_, h9, by rfl, never_empty h9⟩

/-- A graph of one node. -/
def single (function : Option Unit) : TaskGraph (Option Unit) := (empty.add function).1

theorem returns_single (function : Option Unit) : Returns (single function).topological_order [0] := by
  refine ⟨3, fun fuel hfuel => ?_⟩
  obtain ⟨k, rfl⟩ := Nat.exists_eq_add_of_le' hfuel
  rfl

/-- The graph is submitted a second time, and the worker gets to the second task. -/
theorem never_empty_resubmitted : ∃ s : State Bool Unit, Reachable (system Bool Unit pool) s ∧ ¬NeverEmpty s := by
  have h : Reachable (system Bool Unit pool) initial := .initial rfl
  have h1 := h.step (.build (k := 0) (show BuildStep (.add (some ())) empty _ from .add))
  have h2 := h1.step (.begin (c := false) (k := 0) (by rfl) (by rfl) (returns_single (some ())))
  have h3 := h2.step (.node (c := false) (by rfl) (by rfl) (by rfl)
    (Runtime.Lifecycle.Step.submit (c := false) _ (by rfl)) (by rfl))
  have h4 := h3.step (.inside (c := false) (by rfl) (by rfl) (.acquire 0 (by rfl) (by decide) (by rfl))
    (by intro heq; cases heq))
  have h5 := h4.step (.inside (c := false) (by rfl) (by rfl) (.open_successors (by rfl)) (by intro heq; cases heq))
  have h6 := h5.step (.inside (c := false) (by rfl) (by rfl) (.create (by rfl)) (by intro heq; cases heq))
  have h7 := h6.step (.inside (c := false) (by rfl) (by rfl) (.publish (by rfl)) (by intro heq; cases heq))
  have h8 := h7.step (.returns (c := false) (by rfl) (by rfl) (.enqueue_ready (by rfl)) (by rfl))
  have h9 := h8.step (.finish (c := false) (by rfl) (by rfl) (by rfl))
  have h10 := h9.step (.begin (c := false) (k := 0) (by rfl) (by rfl) (returns_single none))
  have h11 := h10.step (.node (c := false) (by rfl) (by rfl) (by rfl)
    (Runtime.Lifecycle.Step.submit (c := false) _ (by rfl)) (by rfl))
  have h12 := h11.step (.inside (c := false) (by rfl) (by rfl) (.acquire 1 (by rfl) (by decide) (by rfl))
    (by intro heq; cases heq))
  have h13 := h12.step (.inside (c := false) (by rfl) (by rfl) (.open_successors (by rfl)) (by intro heq; cases heq))
  have h14 := h13.step (.inside (c := false) (by rfl) (by rfl) (.create (by rfl)) (by intro heq; cases heq))
  have h15 := h14.step (.inside (c := false) (by rfl) (by rfl) (.publish (by rfl)) (by intro heq; cases heq))
  have h16 := h15.step (.returns (c := false) (by rfl) (by rfl) (.enqueue_ready (by rfl)) (by rfl))
  have h17 := h16.step (.step (c := true) (by rfl) (.dequeue ⟨1, 0⟩ (by rfl) (by decide)) (by intro h heq; cases heq))
  have h18 := h17.step (.step (c := true) (by rfl) (.execute (by rfl) ⟨rfl, by decide, by rfl⟩)
    (by intro h heq; cases heq))
  have h19 := h18.step (.step (c := true) (by rfl) (.exchange (by rfl)) (by intro h heq; cases heq))
  refine ⟨_, h19, fun hne => ?_⟩
  obtain ⟨t, ht, hbody⟩ := hne.pooled true ⟨1, 0⟩ (by rfl)
  obtain rfl : 1 = t := Option.some.inj ht
  exact hbody (by rfl)

end Thunderbolt.Graph.Resubmit
