import Thunderbolt.Graph.TaskGraph
import Thunderbolt.Runtime.Lifecycle

/-! `TaskGraph::submit_and_wait`, on a runtime that others use at the same time.

The call is one of the lifecycle's, the `client`. Inside `submit_after` and
`is_complete_internal` it takes the lifecycle's steps; between those it runs the loops of
`submit` and of `submit_and_wait`. Other calls do as they like. What `wait` does while the
answer is no, a worker's help included, is theirs too. -/
namespace Thunderbolt.Graph.SubmitAndWait
open Concurrent

/-- Where the call stands. -/
inductive Phase where
  | before
  /-- `submit`: at the head of the loop, with the nodes still to be submitted. -/
  | submitting (order : List ℕ)
  /-- Inside `submit_after`, for node `id`. -/
  | inside (id : ℕ) (order : List ℕ)
  /-- `submit_and_wait`: at the head of the loop, or of that of `wait`, for `handles[k]`. -/
  | waiting (k : ℕ)
  /-- Inside `is_complete_internal`. -/
  | asking (k : ℕ)
  | returned (result : Bool)

structure State (Call : Type) where
  runtime : Runtime.Lifecycle.State Call
  phase : Phase
  handles : ℕ → TaskHandle
  /-- The submission made for a node. -/
  submission : ℕ → Option ℕ

inductive Act (Call : Type) where
  | runtime (a : Runtime.Lifecycle.Act Call)
  | client

variable {Desc Call : Type} [DecidableEq Call]

open TaskGraph in
/-- `CyclePolicy::RefuseQuietly`. -/
inductive Step (cfg : Runtime.Lifecycle.PoolConfig) (g : TaskGraph Desc) (client : Call) :
    Act Call → State Call → State Call → Prop where
  | other {s a r} : a.call ≠ client → Runtime.Lifecycle.Step cfg a s.runtime r →
      Step cfg g client (.runtime a) s {s with runtime := r}
  | empty {s} : s.phase = .before → g.nodes = [] →
      Step cfg g client .client s {s with phase := .returned true}
  | cyclic {s} : s.phase = .before → g.nodes ≠ [] → Returns g.topological_order [] →
      Step cfg g client .client s {s with phase := .returned false}
  | order {s order} : s.phase = .before → g.nodes ≠ [] → Returns g.topological_order order →
      order ≠ [] →
      Step cfg g client .client s {s with phase := .submitting order, handles := fun _ => .none}
  | submit_after {s id order r} : s.phase = .submitting (id :: order) →
      Runtime.Lifecycle.Step cfg (.submit client ((g.predecessors id).map s.handles)) s.runtime r →
      r.pc client = .acquiring s.runtime.submitted false →
      Step cfg g client (.runtime (.submit client ((g.predecessors id).map s.handles))) s
        {s with
          runtime := r, phase := .inside id order
          submission := Function.update s.submission id (some s.runtime.submitted)}
  | inside {s id order a r} : s.phase = .inside id order → a.call = client →
      Runtime.Lifecycle.Step cfg a s.runtime r → r.pc client ≠ .idle →
      Step cfg g client (.runtime a) s {s with runtime := r}
  | returns {s id order a r} : s.phase = .inside id order → a.call = client →
      Runtime.Lifecycle.Step cfg a s.runtime r → r.pc client = .idle →
      Step cfg g client (.runtime a) s
        {s with
          runtime := r, phase := .submitting order
          handles := Function.update s.handles id (s.runtime.pc client).handle}
  | submitted {s} : s.phase = .submitting [] →
      Step cfg g client .client s {s with phase := .waiting 0}
  | ask {s k r before} : s.phase = .waiting k → k < g.node_count →
      Runtime.Lifecycle.Step cfg (.step client) s.runtime r →
      r.pc client = .asking none (s.handles k) before →
      Step cfg g client (.runtime (.step client)) s {s with runtime := r, phase := .asking k}
  | asking {s k r} : s.phase = .asking k → Runtime.Lifecycle.Step cfg (.step client) s.runtime r →
      r.pc client ≠ .idle →
      Step cfg g client (.runtime (.step client)) s {s with runtime := r}
  | answered {s k r o h before result} : s.phase = .asking k →
      s.runtime.pc client = .answered o h before result →
      Runtime.Lifecycle.Step cfg (.step client) s.runtime r → r.pc client = .idle →
      Step cfg g client (.runtime (.step client)) s
        {s with runtime := r, phase := .waiting (if result then k + 1 else k)}
  | done {s} : s.phase = .waiting g.node_count →
      Step cfg g client .client s {s with phase := .returned true}

/-- Nobody has called yet. -/
def initial : State Call := ⟨Runtime.Lifecycle.initial, .before, fun _ => .none, fun _ => none⟩

/-- The graph is submitted once. -/
def system (cfg : Runtime.Lifecycle.PoolConfig) (g : TaskGraph Desc) (client : Call) :
    System (State Call) (Act Call) :=
  ⟨fun s => s = initial, Step cfg g client⟩

/-- Node `id` has been submitted, once, and for no other node. -/
structure Node (s : State Call) (id t : ℕ) : Prop where
  submission : s.submission id = some t
  own : ∀ id', s.submission id' = some t → id' = id
  once : (s.runtime.sub t).invoked ≤ 1

/-- What holds of the call, in every state. -/
structure Correct (g : TaskGraph Desc) (s : State Call) : Prop where
  node : ∀ id t, s.submission id = some t → Node s id t
  /-- A body starts behind the bodies of all predecessors. -/
  behind : ∀ id t, s.submission id = some t → 0 < (s.runtime.sub t).invoked → ∀ p, g.Edge p id →
    ∃ u, s.submission p = some u ∧ (s.runtime.sub u).ended = true
  acyclic : g.Acyclic → s.phase ≠ .returned false ∧ (s.phase = .returned true →
    ∀ id < g.node_count, ∃ t, s.submission id = some t ∧ (s.runtime.sub t).ended = true ∧
      (s.runtime.sub t).invoked = 1)
  cyclic : ¬g.Acyclic → (s.phase = .before ∨ s.phase = .returned false) ∧
    ∀ id, s.submission id = none

end Thunderbolt.Graph.SubmitAndWait
