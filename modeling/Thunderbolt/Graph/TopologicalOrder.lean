import Mathlib.Data.Finset.Lattice.Fold
import Mathlib.Data.Fintype.EquivFin
import Mathlib.Data.List.Count
import Mathlib.Data.List.Perm.Subperm
import Mathlib.Order.WellFounded
import Thunderbolt.Graph.TaskGraph

/-! Kahn's algorithm orders the acyclic graphs and no others.

The counter of a node and its edges from nodes that have been emitted add up to
its edges altogether, where those still to be visited count twice (`Inv.counted`). So a
counter is above zero when it is decremented, and at zero when all predecessors have been
emitted. Of the nodes never emitted each has a predecessor among them, which makes a cycle. -/
namespace Thunderbolt.Graph
open Concurrent

variable {Desc : Type} {g : TaskGraph Desc}

/-! ### The graphs that can be built -/

namespace TaskGraph

/-- What every graph has that was built with nothing cut off. -/
structure WellFormed (g : TaskGraph Desc) : Prop where
  count_le : g.node_count ≤ word
  bounded : ∀ id, (g.predecessors id).length < word
  lt : ∀ id, ∀ s ∈ g.successors id, s < g.node_count
  mirrored : ∀ a b, (g.successors a).count b = (g.predecessors b).count a

theorem predecessors_add (g : TaskGraph Desc) (desc : Desc) :
    (g.add desc).1.predecessors = g.predecessors := by
  funext id
  simp only [predecessors, add, List.getElem?_append, List.getElem?_singleton]
  split
  · rfl
  · rename_i hge
    rw [List.getElem?_eq_none (Nat.le_of_not_lt hge)]
    split <;> rfl

theorem successors_add (g : TaskGraph Desc) (desc : Desc) :
    (g.add desc).1.successors = g.successors := by
  funext id
  simp only [successors, add, List.getElem?_append, List.getElem?_singleton]
  split
  · rfl
  · rename_i hge
    rw [List.getElem?_eq_none (Nat.le_of_not_lt hge)]
    split <;> rfl

/-- The edge that is added. -/
theorem add_edge_of_lt {before after : ℕ} (hbefore : before < g.node_count) (hafter : after < g.node_count)
    (hne : before ≠ after) :
    (g.add_edge before after).node_count = g.node_count ∧
      (g.add_edge before after).predecessors =
        Function.update g.predecessors after (g.predecessors after ++ [before]) ∧
      (g.add_edge before after).successors =
        Function.update g.successors before (g.successors before ++ [after]) := by
  have hedge : g.add_edge before after = _ := (if_neg (by omega)).trans (if_neg hne)
  refine ⟨?_, ?_, ?_⟩
  · simp [hedge, node_count]
  · funext id
    rw [hedge]
    by_cases hid : id = after
    · subst hid
      simp [predecessors, hne, List.getElem?_eq_getElem hafter]
    · simp only [predecessors, List.getElem?_modify, Function.update_of_ne hid, Ne.symm hid, if_false]
      cases g.nodes[id]? with
      | none => simp
      | some node => by_cases hb : before = id <;> simp [hb]
  · funext id
    rw [hedge]
    by_cases hid : id = before
    · subst hid
      simp [successors, Ne.symm hne, List.getElem?_eq_getElem hbefore]
    · simp only [successors, List.getElem?_modify, Function.update_of_ne hid, Ne.symm hid, if_false]
      cases g.nodes[id]? with
      | none => simp
      | some node => by_cases ha : after = id <;> simp [ha]

/-- An edge out of range or onto itself is ignored. -/
theorem add_edge_cases (g : TaskGraph Desc) (before after : ℕ) :
    g.add_edge before after = g ∨ before < g.node_count ∧ after < g.node_count ∧ before ≠ after := by
  by_cases hrange : before ≥ g.node_count ∨ after ≥ g.node_count
  · exact .inl (if_pos hrange)
  by_cases hself : before = after
  · exact .inl ((if_neg hrange).trans (if_pos hself))
  · exact .inr ⟨by omega, by omega, hself⟩

theorem wellFormed_empty : (empty : TaskGraph Desc).WellFormed :=
  ⟨Nat.zero_le _, fun _ => Nat.zero_lt_succ _, fun _ _ hs => absurd hs List.not_mem_nil, fun _ _ => rfl⟩

theorem WellFormed.add (h : g.WellFormed) {desc : Desc} (hfits : g.node_count < word) :
    (g.add desc).1.WellFormed := by
  have hcount : (g.add desc).1.node_count = g.node_count + 1 := by simp [TaskGraph.add, node_count]
  refine ⟨by omega, ?_, ?_, ?_⟩
  · rw [predecessors_add]
    exact h.bounded
  · rw [successors_add, hcount]
    exact fun id s hs => Nat.lt_succ_of_lt (h.lt id s hs)
  · rw [predecessors_add, successors_add]
    exact h.mirrored

theorem WellFormed.add_edge (h : g.WellFormed) {before after : ℕ}
    (hfits : (g.predecessors after).length + 1 < word) : (g.add_edge before after).WellFormed := by
  obtain heq | ⟨hbefore, hafter, hne⟩ := g.add_edge_cases before after
  · rwa [heq]
  obtain ⟨hcount, hpred, hsucc⟩ := add_edge_of_lt hbefore hafter hne
  refine ⟨hcount ▸ h.count_le, fun id => ?_, fun id s hs => ?_, fun a b => ?_⟩
  · rw [hpred]
    by_cases hid : id = after
    · subst hid
      simpa using hfits
    · rw [Function.update_of_ne hid]
      exact h.bounded id
  · rw [hcount]
    rw [hsucc] at hs
    by_cases hid : id = before
    · subst hid
      rw [Function.update_self] at hs
      obtain hs | hs := List.mem_append.mp hs
      · exact h.lt id s hs
      · obtain rfl := List.mem_singleton.mp hs
        exact hafter
    · rw [Function.update_of_ne hid] at hs
      exact h.lt id s hs
  · rw [hpred, hsucc]
    have hab := h.mirrored a b
    by_cases ha : a = before <;> by_cases hb : b = after
    · subst ha hb
      simp [hab]
    · subst ha
      simp [hab, hb, Ne.symm hb]
    · subst hb
      simp [hab, ha, Ne.symm ha]
    · simp [hab, ha, hb]

theorem wellFormed (h : Reachable ((building Desc).restrict Fits) g) : g.WellFormed := by
  induction h with
  | initial hi =>
    obtain rfl := hi
    exact wellFormed_empty
  | step _ hstep ih =>
    obtain ⟨hstep, hfits⟩ := hstep
    cases hstep with
    | add => exact ih.add hfits
    | edge => exact ih.add_edge hfits

theorem WellFormed.edge_iff (h : g.WellFormed) {before after : ℕ} :
    g.Edge before after ↔ before ∈ g.predecessors after := by
  rw [Edge, ← List.count_pos_iff, h.mirrored, List.count_pos_iff]

theorem WellFormed.predecessor_lt (h : g.WellFormed) {id p : ℕ} (hp : p ∈ g.predecessors id) :
    p < g.node_count := by
  by_contra hge
  have hmem := h.edge_iff.mpr hp
  rw [Edge, successors, List.getElem?_eq_none (Nat.le_of_not_lt hge)] at hmem
  cases hmem

end TaskGraph

/-! ### The loops -/

namespace Kahn

/-- What the loops keep. -/
structure Inv (g : TaskGraph Desc) (s : Kahn) : Prop where
  visiting_lt : ∀ x ∈ s.visiting, x < g.node_count
  nodup : (s.order ++ s.ready).Nodup
  lt : ∀ x ∈ s.order ++ s.ready, x < g.node_count
  small : ∀ x, s.remaining_predecessors x < word
  counted : ∀ x, s.remaining_predecessors x + (g.predecessors x).countP (· ∈ s.order) =
    (g.predecessors x).length + s.visiting.count x
  zero : ∀ x < g.node_count, s.remaining_predecessors x = 0 ↔ x ∈ s.order ++ s.ready
  behind : ∀ l₁ id l₂, s.order = l₁ ++ id :: l₂ → ∀ p ∈ g.predecessors id, p ∈ l₁

variable {s s' : Kahn}

theorem inv_initial (h : g.WellFormed) : Inv g (initial g) := by
  have hmod : ∀ i, (g.predecessors i).length % word = (g.predecessors i).length :=
    fun i => Nat.mod_eq_of_lt (h.bounded i)
  have hready : (initial g).ready =
      (List.range g.node_count).filter fun i => (g.predecessors i).length = 0 := by
    simp only [initial, hmod]
    refine (List.map_congr_left fun i hi => ?_).trans (List.map_id _)
    have hlt := List.mem_range.mp (List.mem_filter.mp hi).1
    exact Nat.mod_eq_of_lt (hlt.trans_le h.count_le)
  have hmem : ∀ x, x ∈ (initial g).order ++ (initial g).ready ↔
      x < g.node_count ∧ (g.predecessors x).length = 0 := by
    intro x
    rw [hready]
    simp [initial]
  refine ⟨fun x hx => absurd hx List.not_mem_nil, ?_, fun x hx => ((hmem x).mp hx).1, fun x => ?_, fun x => ?_,
    fun x hx => ?_, fun l₁ id l₂ heq => ?_⟩
  · rw [hready]
    exact List.nodup_range.filter _
  · exact Nat.mod_lt _ (by decide)
  · simp [initial, hmod]
  · rw [hmem]
    simp only [initial, hmod]
    exact ⟨fun hzero => ⟨hx, hzero⟩, fun hx => hx.2⟩
  · have := congrArg List.length heq
    simp [initial] at this

/-- A counter is above zero when it is decremented. -/
theorem Inv.pos (h : Inv g s) {x : ℕ} {visiting : List ℕ} (hx : s.visiting = x :: visiting) :
    0 < s.remaining_predecessors x := by
  have hcounted := h.counted x
  have hle := List.countP_le_length (p := (· ∈ s.order)) (l := g.predecessors x)
  rw [hx, List.count_cons_self] at hcounted
  omega

theorem Inv.visit (h : Inv g s) {x : ℕ} {visiting : List ℕ} (hx : s.visiting = x :: visiting) :
    Inv g (s.visit x visiting) := by
  have hpos := h.pos hx
  have hsmall := h.small x
  have hxlt : x < g.node_count := h.visiting_lt x (hx ▸ List.mem_cons_self)
  have hdec : (s.remaining_predecessors x + (word - 1)) % word = s.remaining_predecessors x - 1 := by
    have hsplit : s.remaining_predecessors x + (word - 1) = s.remaining_predecessors x - 1 + word := by
      omega
    rw [hsplit, Nat.add_mod_right, Nat.mod_eq_of_lt (by omega)]
  have hfresh : x ∉ s.order ++ s.ready := fun hmem => by
    have := (h.zero x hxlt).mpr hmem
    omega
  -- The list of the nodes that are ready or have been emitted.
  have hlist : (s.visit x visiting).order ++ (s.visit x visiting).ready =
      s.order ++ s.ready ++ if s.remaining_predecessors x - 1 = 0 then [x] else [] := by
    simp only [Kahn.visit, hdec]
    split <;> simp
  have hremaining : (s.visit x visiting).remaining_predecessors =
      Function.update s.remaining_predecessors x (s.remaining_predecessors x - 1) := by
    simp only [Kahn.visit, hdec]
  refine ⟨fun y hy => ?_, ?_, fun y hy => ?_, fun y => ?_, fun y => ?_, fun y hy => ?_, h.behind⟩
  · exact h.visiting_lt y (hx ▸ List.mem_cons_of_mem x hy)
  · rw [hlist]
    split
    · exact List.nodup_append.mpr ⟨h.nodup, by simp, by
        intro y hy z hz heq
        obtain rfl := heq
        exact hfresh (List.mem_singleton.mp hz ▸ hy)⟩
    · rw [List.append_nil]
      exact h.nodup
  · rw [hlist] at hy
    obtain hy | hy := List.mem_append.mp hy
    · exact h.lt y hy
    · split at hy
      · exact List.mem_singleton.mp hy ▸ hxlt
      · cases hy
  · rw [hremaining]
    by_cases hyx : y = x
    · subst hyx
      rw [Function.update_self]
      omega
    · rw [Function.update_of_ne hyx]
      exact h.small y
  · have hcounted := h.counted y
    rw [hremaining]
    show _ + (g.predecessors y).countP (· ∈ s.order) = (g.predecessors y).length + visiting.count y
    rw [hx] at hcounted
    by_cases hyx : y = x
    · subst hyx
      rw [List.count_cons_self] at hcounted
      rw [Function.update_self]
      omega
    · rw [List.count_cons_of_ne (Ne.symm hyx)] at hcounted
      rw [Function.update_of_ne hyx]
      exact hcounted
  · have hzero := h.zero y hy
    rw [hlist, List.mem_append, hremaining, ← hzero]
    by_cases hyx : y = x
    · subst hyx
      rw [Function.update_self]
      constructor
      · intro hlast
        exact .inr (by simp [hlast])
      · rintro (hwas | hmem)
        · omega
        · by_contra hmore
          simp [hmore] at hmem
    · rw [Function.update_of_ne hyx]
      constructor
      · exact .inl
      · rintro (hwas | hmem)
        · exact hwas
        · split at hmem
          · exact absurd (List.mem_singleton.mp hmem) hyx
          · cases hmem

/-- Only nodes whose predecessors have all been emitted are ready. -/
theorem Inv.predecessors_mem (h : Inv g s) {x : ℕ} (hx : x < g.node_count)
    (hmem : x ∈ s.order ++ s.ready) (hvisiting : s.visiting = []) : ∀ p ∈ g.predecessors x, p ∈ s.order := by
  have hcounted := h.counted x
  rw [(h.zero x hx).mpr hmem, hvisiting, List.count_nil, Nat.zero_add, Nat.add_zero,
    List.countP_eq_length] at hcounted
  simpa using hcounted

theorem Inv.emit (hg : g.WellFormed) (h : Inv g s) {id : ℕ} {ready : List ℕ} (hready : s.ready = id :: ready)
    (hvisiting : s.visiting = []) :
    Inv g {s with ready, order := s.order ++ [id], visiting := g.successors id} := by
  have hlist : (s.order ++ [id]) ++ ready = s.order ++ s.ready := by
    rw [hready, List.append_assoc, List.singleton_append]
  have hid : id ∈ s.order ++ s.ready := by simp [hready]
  have hnew : id ∉ s.order := by
    have hnodup := h.nodup
    rw [hready, List.nodup_append] at hnodup
    exact fun hmem => hnodup.2.2 id hmem id List.mem_cons_self rfl
  refine ⟨hg.lt id, ?_, ?_, h.small, fun x => ?_, ?_, fun l₁ x l₂ heq => ?_⟩
  · exact hlist.symm ▸ h.nodup
  · exact hlist.symm ▸ h.lt
  · have hcounted := h.counted x
    -- The edges from `id`, which is emitted now.
    have hsplit : ∀ l : List ℕ, l.countP (· ∈ s.order ++ [id]) = l.countP (· ∈ s.order) + l.count id := by
      intro l
      induction l with
      | nil => rfl
      | cons p l ih =>
        rw [List.countP_cons, List.countP_cons, List.count_cons, ih]
        by_cases hp : p = id
        · subst hp
          simp [hnew]
          omega
        · simp [hp]
          omega
    rw [hvisiting, List.count_nil] at hcounted
    show s.remaining_predecessors x + (g.predecessors x).countP (· ∈ s.order ++ [id]) =
      (g.predecessors x).length + (g.successors id).count x
    rw [hsplit, hg.mirrored]
    omega
  · exact hlist.symm ▸ h.zero
  · obtain ⟨rfl, hlast⟩ | ⟨l₂', rfl, horder⟩ :
        (l₁ = s.order ∧ x = id) ∨ ∃ l₂', l₂ = l₂' ++ [id] ∧ s.order = l₁ ++ x :: l₂' := by
      obtain rfl | ⟨l₂', y, rfl⟩ := List.eq_nil_or_concat' l₂
      · obtain ⟨horder, hx⟩ := List.append_inj' heq rfl
        exact .inl ⟨horder.symm, (List.cons.inj hx).1.symm⟩
      · rw [← List.cons_append, ← List.append_assoc] at heq
        obtain ⟨horder, hy⟩ := List.append_inj' heq rfl
        obtain rfl := (List.cons.inj hy).1
        exact .inr ⟨l₂', rfl, horder⟩
    · subst hlast
      exact h.predecessors_mem (h.lt x hid) hid hvisiting
    · exact h.behind l₁ x l₂' horder

theorem Inv.next (hg : g.WellFormed) (h : Inv g s) (hnext : s.next g = some s') : Inv g s' := by
  unfold Kahn.next at hnext
  split at hnext
  · rename_i x visiting hvisiting
    obtain rfl := Option.some.inj hnext
    exact h.visit hvisiting
  · rename_i id ready hvisiting hready
    obtain rfl := Option.some.inj hnext
    exact h.emit hg hready hvisiting
  · cases hnext

theorem invariant (hg : g.WellFormed) (h : Reachable (system g) s) : Inv g s := by
  apply h.invariant
  · intro s heq
    obtain rfl := heq
    exact inv_initial hg
  · exact fun _ _ _ _ hs hnext => hs.next hg hnext

/-! ### The loops end -/

/-- What is still to be done, when no node has more than `B` successors. -/
def left (g : TaskGraph Desc) (B : ℕ) (s : Kahn) : ℕ :=
  (g.node_count - s.order.length) * (B + 2) + s.visiting.length

/-- As many as the graph has nodes are emitted at most. -/
theorem Inv.length_le (h : Inv g s) : (s.order ++ s.ready).length ≤ g.node_count := by
  have hsub : s.order ++ s.ready ⊆ List.range g.node_count :=
    fun x hx => List.mem_range.mpr (h.lt x hx)
  simpa using (h.nodup.subperm hsub).length_le

theorem left_next {B : ℕ} (hB : ∀ id, (g.successors id).length ≤ B) (h : Inv g s)
    (hnext : s.next g = some s') : s'.left g B < s.left g B := by
  unfold Kahn.next at hnext
  split at hnext
  · rename_i x visiting hvisiting
    obtain rfl := Option.some.inj hnext
    simp [left, visit, hvisiting]
  · rename_i id ready hvisiting hready
    obtain rfl := Option.some.inj hnext
    have hlength := h.length_le
    have hid := hB id
    rw [hready, List.length_append, List.length_cons] at hlength
    simp only [left, hvisiting, List.length_append, List.length_singleton, List.length_nil]
    have hsplit : g.node_count - s.order.length = g.node_count - (s.order.length + 1) + 1 := by omega
    rw [hsplit, Nat.add_one_mul]
    omega
  · cases hnext

theorem run_ends (hg : g.WellFormed) {B fuel : ℕ} (hB : ∀ id, (g.successors id).length ≤ B) (h : Inv g s)
    (hfuel : s.left g B < fuel) : ∃ s', run g fuel s = some s' ∧ Inv g s' ∧ s'.next g = none := by
  induction fuel generalizing s with
  | zero => exact absurd hfuel (Nat.not_lt_zero _)
  | succ fuel ih =>
    cases hnext : s.next g with
    | none => exact ⟨s, by simp [run, hnext], h, hnext⟩
    | some s₁ =>
      have hlt := left_next hB h hnext
      obtain ⟨s', hrun, hs'⟩ := ih (h.next hg hnext) (by omega)
      exact ⟨s', by simpa [run, hnext] using hrun, hs'⟩

/-- More rounds than needed change nothing. -/
theorem run_mono {fuel fuel' : ℕ} (hle : fuel ≤ fuel') (hrun : run g fuel s = some s') :
    run g fuel' s = some s' := by
  induction fuel generalizing fuel' s with
  | zero => cases hrun
  | succ fuel ih =>
    obtain ⟨fuel', rfl⟩ : ∃ k, fuel' = k + 1 := ⟨fuel' - 1, by omega⟩
    simp only [run] at hrun ⊢
    cases hnext : s.next g with
    | none => rwa [hnext] at hrun
    | some s₁ =>
      rw [hnext] at hrun
      exact ih (by omega) hrun

theorem returns (hg : g.WellFormed) :
    ∃ s fuel₀, (∀ fuel ≥ fuel₀, run g fuel (initial g) = some s) ∧ Inv g s ∧ s.next g = none := by
  have hB : ∀ id, (g.successors id).length ≤
      (Finset.range g.node_count).sup fun id => (g.successors id).length := by
    intro id
    by_cases hid : id < g.node_count
    · exact Finset.le_sup (f := fun id => (g.successors id).length) (Finset.mem_range.mpr hid)
    · rw [TaskGraph.successors, List.getElem?_eq_none (Nat.le_of_not_lt hid)]
      exact Nat.zero_le _
  obtain ⟨s, hrun, hs⟩ := run_ends hg hB (inv_initial hg) (Nat.lt_succ_self _)
  exact ⟨s, _, fun fuel hge => run_mono hge hrun, hs⟩

/-! ### What is left when they have ended -/

theorem next_none (h : s.next g = none) : s.visiting = [] ∧ s.ready = [] := by
  unfold Kahn.next at h
  split at h
  · cases h
  · cases h
  · exact ⟨by assumption, by assumption⟩

/-- A node that was not emitted has a predecessor that was not. -/
theorem Inv.stuck (h : Inv g s) (hend : s.next g = none) {x : ℕ} (hx : x < g.node_count)
    (hnot : x ∉ s.order) : ∃ p ∈ g.predecessors x, p ∉ s.order := by
  obtain ⟨hvisiting, hready⟩ := next_none hend
  by_contra hall
  push Not at hall
  have hcounted := h.counted x
  have hzero := h.zero x hx
  rw [List.countP_eq_length.mpr (by simpa using hall), hvisiting, List.count_nil] at hcounted
  rw [hready, List.append_nil] at hzero
  exact hnot (hzero.mp (by omega))

end Kahn

/-! ### Acyclic graphs -/

/-- In an acyclic relation on a finite type every set has an element with none of the set before it. -/
theorem exists_first {α : Type*} [Finite α] {r : α → α → Prop} (h : ∀ x, ¬Relation.TransGen r x x)
    {S : Set α} (hS : S.Nonempty) : ∃ x ∈ S, ∀ p ∈ S, ¬r p x := by
  have : Std.Irrefl (Relation.TransGen r) := ⟨h⟩
  have hwf : WellFounded (Relation.TransGen r) := Finite.wellFounded_of_trans_of_irrefl _
  obtain ⟨x, hx, hmin⟩ := hwf.has_min S hS
  exact ⟨x, hx, fun p hp hr => hmin p hp (.single hr)⟩

namespace TaskGraph

/-- A graph in order has no cycle: who comes before, directly or not, stands before. -/
theorem Topological.acyclic {order : List ℕ} (hg : g.WellFormed) (h : g.Topological order) : g.Acyclic := by
  have hbefore : ∀ {p id}, Relation.TransGen g.Edge p id →
      ∀ l₁ l₂, order = l₁ ++ id :: l₂ → p ∈ l₁ := by
    intro p id hpath
    induction hpath with
    | single hedge => exact fun l₁ l₂ heq => h.behind l₁ _ l₂ heq p hedge
    | @tail mid id _ hedge ih =>
      intro l₁ l₂ heq
      obtain ⟨m₁, m₂, rfl⟩ := List.append_of_mem (h.behind l₁ id l₂ heq mid hedge)
      exact List.mem_append_left _ (ih m₁ (m₂ ++ id :: l₂) (by simp [heq]))
  intro id hcycle
  have hid : id < g.node_count := by
    obtain ⟨p, _, hedge⟩ := Relation.TransGen.tail'_iff.mp hcycle
    exact hg.lt p id hedge
  obtain ⟨l₁, l₂, heq⟩ := List.append_of_mem (h.perm.mem_iff.mpr (List.mem_range.mpr hid))
  have hnodup := h.perm.nodup_iff.mpr List.nodup_range
  rw [heq, List.nodup_append] at hnodup
  exact hnodup.2.2 id (hbefore hcycle l₁ l₂ heq) id List.mem_cons_self rfl

/-- An acyclic graph is emitted in full. -/
theorem order_full (hg : g.WellFormed) {s : Kahn} (h : Kahn.Inv g s) (hend : s.next g = none)
    (hacyclic : g.Acyclic) : s.order.length = g.node_count := by
  obtain ⟨_, hready⟩ := Kahn.next_none hend
  have hle := h.length_le
  rw [hready, List.append_nil] at hle
  by_contra hne
  have hmissing : ∃ x : Fin g.node_count, x.val ∉ s.order := by
    by_contra hall
    push Not at hall
    have hsub : List.range g.node_count ⊆ s.order := fun x hx => hall ⟨x, List.mem_range.mp hx⟩
    have := (List.nodup_range.subperm hsub).length_le
    rw [List.length_range] at this
    omega
  have hfin : ∀ x : Fin g.node_count, ¬Relation.TransGen (fun a b : Fin g.node_count => g.Edge a b) x x :=
    fun x hcycle => hacyclic x (hcycle.lift Fin.val fun _ _ => id)
  obtain ⟨x, hx, hfirst⟩ := exists_first (S := {x : Fin g.node_count | x.val ∉ s.order}) hfin hmissing
  obtain ⟨p, hp, hpnot⟩ := h.stuck hend x.isLt hx
  exact hfirst ⟨p, hg.predecessor_lt hp⟩ hpnot (hg.edge_iff.mpr hp)

theorem topological (hg : g.WellFormed) {s : Kahn} (h : Kahn.Inv g s) (hend : s.next g = none)
    (hfull : s.order.length = g.node_count) : g.Topological s.order := by
  obtain ⟨_, hready⟩ := Kahn.next_none hend
  have hnodup := h.nodup
  have hlt := h.lt
  rw [hready, List.append_nil] at hnodup hlt
  refine ⟨?_, fun l₁ id l₂ heq p hedge => h.behind l₁ id l₂ heq p (hg.edge_iff.mp hedge)⟩
  have hsub : s.order ⊆ List.range g.node_count := fun x hx => List.mem_range.mpr (hlt x hx)
  exact (hnodup.subperm hsub).perm_of_length_le (by simp [hfull])

theorem ordered (hg : g.WellFormed) : g.Ordered := by
  obtain ⟨s, fuel₀, hrun, hs, hend⟩ := Kahn.returns hg
  have hacyclic : g.Acyclic ↔ s.order.length = g.node_count :=
    ⟨order_full hg hs hend, fun hfull => (topological hg hs hend hfull).acyclic hg⟩
  have horder : Returns g.topological_order (if s.order.length ≠ g.node_count then [] else s.order) :=
    ⟨fuel₀, fun fuel hge => by rw [topological_order, hrun fuel hge]; rfl⟩
  refine ⟨fun s hr x visiting hx => (Kahn.invariant hg hr).pos hx, ⟨_, horder, fun hac => ?_, fun hcyc => ?_⟩, ?_⟩
  · rw [if_neg (not_not.mpr (hacyclic.mp hac))]
    exact topological hg hs hend (hacyclic.mp hac)
  · rw [hacyclic] at hcyc
    rw [if_pos hcyc]
  · by_cases hempty : g.nodes = []
    · refine ⟨true, ⟨0, fun fuel _ => if_pos hempty⟩, fun _ => hacyclic.mpr ?_, fun _ => rfl⟩
      have hzero : g.node_count = 0 := by simp [node_count, hempty]
      have := hs.length_le
      rw [hzero, List.length_append] at this
      omega
    · obtain ⟨fuel₁, hfuel⟩ := horder
      refine ⟨_, ⟨fuel₁, fun fuel hge => by rw [is_acyclic, if_neg hempty, hfuel fuel hge]; rfl⟩, ?_⟩
      rw [hacyclic]
      by_cases hfull : s.order.length = g.node_count
      · have hne : s.order ≠ [] := by
          rintro hnil
          rw [hnil] at hfull
          exact hempty (List.length_eq_zero_iff.mp hfull.symm)
        simp [hfull, hne]
      · simp [hfull]

/-- **`topological_order` is correct and complete** for the graphs built with fewer than
`2 ^ 32` nodes at each `add`, and with fewer than `2 ^ 32` edges into each node. -/
theorem topological_order_correct (h : Reachable ((building Desc).restrict Fits) g) : g.Ordered :=
  ordered (wellFormed h)

/-- Two nodes, and so many edges from the first to the second. -/
def parallel : ℕ → TaskGraph Unit
  | 0 => ((empty.add ()).1.add ()).1
  | k + 1 => (parallel k).add_edge 0 1

theorem parallel_eq (k : ℕ) :
    (parallel k).node_count = 2 ∧ (parallel k).predecessors 0 = [] ∧
      (parallel k).predecessors 1 = List.replicate k 0 ∧
      (parallel k).successors 0 = List.replicate k 1 := by
  induction k with
  | zero => exact ⟨rfl, rfl, rfl, rfl⟩
  | succ k ih =>
    obtain ⟨hcount, hfirst, hpred, hsucc⟩ := ih
    obtain ⟨hcount', hpred', hsucc'⟩ :=
      add_edge_of_lt (hcount ▸ Nat.two_pos) (hcount ▸ Nat.one_lt_two) Nat.zero_ne_one
    refine ⟨hcount'.trans hcount, ?_, ?_, ?_⟩
    · simp only [parallel, hpred']
      simpa using hfirst
    · simp only [parallel, hpred', Function.update_self, hpred, List.replicate_succ']
    · simp only [parallel, hsucc', Function.update_self, hsucc, List.replicate_succ']

theorem parallel_built (k : ℕ) : Reachable (building Unit) (parallel k) := by
  induction k with
  | zero =>
    have hfirst : Reachable (building Unit) (empty.add ()).1 := (Reachable.initial rfl).step BuildStep.add
    exact hfirst.step BuildStep.add
  | succ k ih => exact ih.step (BuildStep.edge (by decide) (by decide))

/-- So few edges can be counted. -/
theorem parallel_fits {k : ℕ} (hk : k < word) : Reachable ((building Unit).restrict Fits) (parallel k) := by
  induction k with
  | zero =>
    have hfirst : Reachable ((building Unit).restrict Fits) (empty.add ()).1 :=
      (Reachable.initial rfl).step ⟨.add, Nat.zero_lt_succ _⟩
    exact hfirst.step ⟨.add, Nat.one_lt_succ_succ _⟩
  | succ k ih =>
    have hfits : Fits (.edge 0 1) (parallel k) := by
      rw [Fits, (parallel_eq k).2.2.1, List.length_replicate]
      exact hk
    exact (ih (by omega)).step ⟨.edge (by decide) (by decide), hfits⟩

theorem topological_order_correct_twice : (parallel 2).Ordered :=
  topological_order_correct (parallel_fits (by decide))

/-- If the count of the edges is cut to zero, the counter is zero from the beginning. -/
theorem parallel_ready {k : ℕ} (hmod : k % word = 0) :
    (Kahn.initial (parallel k)).remaining_predecessors 1 = 0 ∧ (Kahn.initial (parallel k)).ready = [0, 1] := by
  obtain ⟨hcount, hfirst, hpred, _⟩ := parallel_eq k
  have hremaining : (Kahn.initial (parallel k)).remaining_predecessors 1 = 0 := by
    show ((parallel k).predecessors 1).length % word = 0
    rw [hpred, List.length_replicate, hmod]
  have hzero : (Kahn.initial (parallel k)).remaining_predecessors 0 = 0 := by
    show ((parallel k).predecessors 0).length % word = 0
    rw [hfirst]
    rfl
  have hrange : ((List.range (parallel k).node_count).filter fun i =>
      (Kahn.initial (parallel k)).remaining_predecessors i = 0).map (· % word) = [0, 1] := by
    rw [hcount]
    simp [List.range_succ, hzero, hremaining, word]
  exact ⟨hremaining, hrange⟩

/-- The first node is emitted, and its edges are to be visited. -/
theorem parallel_next {k : ℕ} (hmod : k % word = 0) :
    (Kahn.initial (parallel k)).next (parallel k) = some
      {Kahn.initial (parallel k) with ready := [1], order := [0], visiting := List.replicate k 1} := by
  obtain ⟨_, _, _, hsucc⟩ := parallel_eq k
  rw [Kahn.next, (parallel_ready hmod).2, ← hsucc]
  rfl

theorem parallel_wraps {k : ℕ} (hpos : 0 < k) (hmod : k % word = 0) : ¬(parallel k).Ordered := by
  intro h
  obtain ⟨k, rfl⟩ : ∃ n, k = n + 1 := ⟨k - 1, by omega⟩
  have hnext := parallel_next hmod
  have := h.above_zero _ (.step (l := ()) (.initial rfl) hnext) 1 (List.replicate k 1) rfl
  exact absurd (parallel_ready hmod).1 this.ne'

theorem topological_order_wraps : Reachable (building Unit) (parallel word) ∧ ¬(parallel word).Ordered :=
  ⟨parallel_built word, parallel_wraps (by decide) (Nat.mod_self word)⟩

end TaskGraph

end Thunderbolt.Graph
