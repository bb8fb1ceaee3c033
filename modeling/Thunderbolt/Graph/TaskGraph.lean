import Mathlib.Data.List.Range
import Mathlib.Logic.Function.Basic
import Mathlib.Logic.Relation
import Thunderbolt.Concurrent.System
import Thunderbolt.Task.Handle

/-! The task graph builder and Kahn's algorithm.

A graph is built by `add` and `add_edge`, in release builds: an edge out of range or onto
itself is ignored. Each edge stands in two lists, its source among the predecessors
of its target and the other way round, as often as it was added.

Node ids and the counters of `topological_order` have 32 bits. A size that is cast to one
of them loses what is above. -/
namespace Thunderbolt.Graph
open Concurrent

variable {Desc : Type}

/-- A node and, beside what it runs, its edges. -/
structure Node (Desc : Type) where
  desc : Desc
  predecessors : List ℕ
  successors : List ℕ

structure TaskGraph (Desc : Type) where
  nodes : List (Node Desc)
  edge_count : ℕ

namespace TaskGraph

def empty : TaskGraph Desc := ⟨[], 0⟩

def node_count (g : TaskGraph Desc) : ℕ := g.nodes.length

/-- The graph with the node, and its id. -/
def add (g : TaskGraph Desc) (desc : Desc) : TaskGraph Desc × ℕ :=
  ({g with nodes := g.nodes ++ [⟨desc, [], []⟩]}, g.node_count % word)

def add_edge (g : TaskGraph Desc) (before after : ℕ) : TaskGraph Desc :=
  if before ≥ g.node_count ∨ after ≥ g.node_count then g
  else if before = after then g
  else
    { nodes := (g.nodes.modify after fun node =>
          {node with predecessors := node.predecessors ++ [before]}).modify before fun node =>
        {node with successors := node.successors ++ [after]}
      edge_count := g.edge_count + 1 }

def predecessors (g : TaskGraph Desc) (id : ℕ) : List ℕ := (g.nodes[id]?.map Node.predecessors).getD []

def successors (g : TaskGraph Desc) (id : ℕ) : List ℕ := (g.nodes[id]?.map Node.successors).getD []

/-- A call that builds a graph. -/
inductive Build (Desc : Type) where
  | add (desc : Desc)
  | edge (before after : ℕ)

/-- Ids have 32 bits. -/
inductive BuildStep : Build Desc → TaskGraph Desc → TaskGraph Desc → Prop where
  | add {g desc} : BuildStep (.add desc) g (g.add desc).1
  | edge {g before after} : before < word → after < word →
      BuildStep (.edge before after) g (g.add_edge before after)

/-- The graphs that can be built. -/
def building (Desc : Type) : System (TaskGraph Desc) (Build Desc) := ⟨fun g => g = empty, BuildStep⟩

/-- Nothing is cut off: there is an id for one more node, and the predecessors can be counted
with one more. -/
def Fits : Build Desc → TaskGraph Desc → Prop
  | .add _, g => g.node_count < word
  | .edge _ after, g => (g.predecessors after).length + 1 < word

/-- There is an edge. -/
def Edge (g : TaskGraph Desc) (before after : ℕ) : Prop := after ∈ g.successors before

def Acyclic (g : TaskGraph Desc) : Prop := ∀ id, ¬Relation.TransGen g.Edge id id

end TaskGraph

/-! ### Kahn's algorithm -/

/-- The loops of `topological_order`, under way. -/
structure Kahn where
  remaining_predecessors : ℕ → ℕ
  ready : List ℕ
  order : List ℕ
  /-- The successors of the last node that are still to be visited. -/
  visiting : List ℕ

namespace Kahn

/-- When the nodes without predecessors have been collected. -/
def initial (g : TaskGraph Desc) : Kahn :=
  let remaining i := (g.predecessors i).length % word
  { remaining_predecessors := remaining
    ready := ((List.range g.node_count).filter fun i => remaining i = 0).map (· % word)
    order := []
    visiting := [] }

/-- `--remaining_predecessors[successor]`, and what depends on it. -/
def visit (s : Kahn) (successor : ℕ) (visiting : List ℕ) : Kahn :=
  let remaining := (s.remaining_predecessors successor + (word - 1)) % word
  { remaining_predecessors := Function.update s.remaining_predecessors successor remaining
    ready := if remaining = 0 then s.ready ++ [successor] else s.ready
    order := s.order
    visiting }

/-- One round of the inner loop, or the head of the outer one. -/
def next (g : TaskGraph Desc) (s : Kahn) : Option Kahn :=
  match s.visiting, s.ready with
  | successor :: visiting, _ => some (s.visit successor visiting)
  | [], id :: ready => some {s with ready, order := s.order ++ [id], visiting := g.successors id}
  | [], [] => none

/-- At most so many rounds: the last state, if the loops end. -/
def run (g : TaskGraph Desc) : ℕ → Kahn → Option Kahn
  | 0, _ => none
  | fuel + 1, s =>
    match s.next g with
    | none => some s
    | some s => run g fuel s

/-- The states the loops go through. -/
def system (g : TaskGraph Desc) : System Kahn Unit where
  initial s := s = initial g
  step _ s s' := s.next g = some s'

end Kahn

namespace TaskGraph

def topological_order (g : TaskGraph Desc) (fuel : ℕ) : Option (List ℕ) :=
  (Kahn.run g fuel (Kahn.initial g)).map fun s =>
    if s.order.length ≠ g.node_count then [] else s.order

def is_acyclic (g : TaskGraph Desc) (fuel : ℕ) : Option Bool :=
  if g.nodes = [] then some true else (g.topological_order fuel).map fun order => !order.isEmpty

/-- A computation ends, with this result. -/
def Returns {α : Type*} (f : ℕ → Option α) (x : α) : Prop := ∃ fuel₀, ∀ fuel ≥ fuel₀, f fuel = some x

/-- Every node is in the list once, behind its predecessors. -/
structure Topological (g : TaskGraph Desc) (order : List ℕ) : Prop where
  perm : order.Perm (List.range g.node_count)
  behind : ∀ l₁ id l₂, order = l₁ ++ id :: l₂ → ∀ p, g.Edge p id → p ∈ l₁

/-- `topological_order` ends, never decrements a counter below zero, orders the acyclic graphs
and no others; and `is_acyclic` tells them apart. -/
structure Ordered (g : TaskGraph Desc) : Prop where
  above_zero : ∀ s, Reachable (Kahn.system g) s → ∀ successor visiting,
    s.visiting = successor :: visiting → 0 < s.remaining_predecessors successor
  order : ∃ order, Returns g.topological_order order ∧
    (g.Acyclic → g.Topological order) ∧ (¬g.Acyclic → order = [])
  acyclic : ∃ acyclic, Returns g.is_acyclic acyclic ∧ (acyclic = true ↔ g.Acyclic)

end TaskGraph

end Thunderbolt.Graph
