import Thunderbolt.Graph.SubmitAndWait
import Thunderbolt.Graph.TopologicalOrder
import Thunderbolt.Runtime.ExactlyOnce
import Thunderbolt.Runtime.SubmitAfter

/-! `submit_and_wait` returns when all bodies have ended.

While the nodes are submitted, those behind have known handles, in the order's sense; so a node is
put behind its predecessors (`Base.behind`). The loop that waits goes on when an answer is
yes, and then the body has ended. -/
namespace Thunderbolt.Graph.SubmitAndWait
open Concurrent TaskGraph
open Runtime.Lifecycle (At Known Asks Behind Recorded Closed)

variable {Desc Call : Type} [DecidableEq Call] {cfg : Runtime.Lifecycle.PoolConfig} {g : TaskGraph Desc}
  {client : Call} {s s' : State Call} {r : Runtime.Lifecycle.State Call} {a : Act Call}
  {b : Runtime.Lifecycle.Act Call} {id t : ℕ}

/-- A call of `submit_after` has fewer than `2 ^ 32` dependencies. -/
def Act.Sized : Act Call → State Call → Prop
  | .runtime b, _ => b.Sized
  | .client, _ => True

theorem runtime_reachable (h : Reachable ((system cfg g client).restrict Act.Sized) s) :
    Reachable (Runtime.Lifecycle.sized Call cfg) s.runtime := by
  induction h with
  | initial hs =>
    subst hs
    exact .initial rfl
  | step _ hs ih =>
    obtain ⟨hs, hsized⟩ := hs
    cases hs with
    | other _ hr => exact ih.step ⟨hr, hsized⟩
    | submit_after _ hr => exact ih.step ⟨hr, hsized⟩
    | inside _ _ hr | returns _ _ hr | ask _ _ hr => exact ih.step ⟨hr, hsized⟩
    | asking _ hr => exact ih.step ⟨hr, hsized⟩
    | answered _ _ hr => exact ih.step ⟨hr, hsized⟩
    | empty | cyclic | order | submitted | done => exact ih

/-! ### What is known of the nodes -/

/-- The node has been submitted, and its handle is the one that was returned. -/
def Handed (s : State Call) (id : ℕ) : Prop :=
  ∃ t, s.submission id = some t ∧ Known s.runtime (s.handles id) t

/-- The node's body has ended. -/
def Over (s : State Call) (id : ℕ) : Prop :=
  ∃ t, s.submission id = some t ∧ (s.runtime.sub t).ended = true

/-- What holds of the submissions, wherever the call stands. -/
structure Base (g : TaskGraph Desc) (s : State Call) : Prop where
  submitted : ∀ id t, s.submission id = some t → t < s.runtime.submitted
  own : ∀ id id' t, s.submission id = some t → s.submission id' = some t → id' = id
  behind : ∀ id t, s.submission id = some t → ∀ p, g.Edge p id →
    ∃ u k, s.submission p = some u ∧ Behind s.runtime t k u

omit [DecidableEq Call] in
/-- The call stands elsewhere. -/
theorem Base.elsewhere (h : Base g s) (phase : Phase) (handles : ℕ → TaskHandle) :
    Base g {s with phase, handles} :=
  ⟨h.submitted, h.own, h.behind⟩

/-- The nodes from `rest` are still to be submitted, those before them are. -/
def Ordering (s : State Call) (done rest : List ℕ) : Prop :=
  (∀ id ∈ done, Handed s id) ∧ ∀ id ∈ rest, s.submission id = none

/-- What holds where the call stands. -/
def PhaseOk (g : TaskGraph Desc) (client : Call) (s : State Call) : Phase → Prop
  | .before => ∀ id, s.submission id = none
  | .submitting rest => ∃ done, g.Topological (done ++ rest) ∧ Ordering s done rest
  | .inside id rest => ∃ done t, g.Topological (done ++ id :: rest) ∧ Ordering s done rest ∧
      s.submission id = some t ∧ At s.runtime client t
  | .waiting k => g.Acyclic ∧ (∀ id < g.node_count, Handed s id) ∧ ∀ id < k, Over s id
  | .asking k => g.Acyclic ∧ (∀ id < g.node_count, Handed s id) ∧ (∀ id < k, Over s id) ∧
      ∃ t, s.submission k = some t ∧ Asks s.runtime client (s.handles k) t
  | .returned true => g.Acyclic ∧ ∀ id < g.node_count, Over s id
  | .returned false => ¬g.Acyclic ∧ ∀ id, s.submission id = none

/-! ### Steps of the runtime -/

/-- A runtime that is between the steps of a run, and one of them. -/
structure Runs (cfg : Runtime.Lifecycle.PoolConfig) (b : Runtime.Lifecycle.Act Call)
    (x r : Runtime.Lifecycle.State Call) : Prop where
  reachable : Reachable (Runtime.Lifecycle.sized Call cfg) x
  step : Runtime.Lifecycle.Step cfg b x r
  sized : b.Sized

namespace Runs
variable (hr : Runs cfg b s.runtime r)
include hr

theorem inv : Runtime.Lifecycle.Inv cfg s.runtime := .reachable hr.reachable

theorem recorded : Recorded cfg s.runtime := .reachable hr.reachable

theorem inv_after : Runtime.Lifecycle.Inv cfg r := .reachable (hr.reachable.step ⟨hr.step, hr.sized⟩)

variable (hb : Base g s)
include hb

theorem handed (h : Handed s id) : Handed {s with runtime := r} id := by
  obtain ⟨t, ht, hknown⟩ := h
  exact ⟨t, ht, hknown.step hr.inv hr.step (hb.submitted id t ht)⟩

theorem stays_over (h : Over s id) : Over {s with runtime := r} id := by
  obtain ⟨t, ht, hend⟩ := h
  exact ⟨t, ht, hr.inv.ended_step hr.step (hb.submitted id t ht) hend⟩

theorem base : Base g {s with runtime := r} where
  submitted id t ht := by
    have hle : s.runtime.submitted ≤ r.submitted := by
      obtain heq | ⟨heq, _⟩ := Runtime.Lifecycle.Inv.submitted_step hr.step <;> omega
    exact (hb.submitted id t ht).trans_le hle
  own := hb.own
  behind id t ht p hp := by
    obtain ⟨u, k, hu, hbehind⟩ := hb.behind id t ht p hp
    exact ⟨u, k, hu, hbehind.step hr.inv hr.recorded (.reachable hr.reachable) hr.step
      (hb.submitted id t ht) (hb.submitted p u hu)⟩

theorem ordering {done rest : List ℕ} (h : Ordering s done rest) :
    Ordering {s with runtime := r} done rest :=
  ⟨fun id hid => hr.handed hb (h.1 id hid), h.2⟩

/-- Another call's step leaves the call where it stands. -/
theorem phase (hother : b.call ≠ client) {phase : Phase} (h : PhaseOk g client s phase) :
    PhaseOk g client {s with runtime := r} phase := by
  match phase, h with
  | .before, h => exact h
  | .submitting rest, ⟨done, htop, hord⟩ => exact ⟨done, htop, hr.ordering hb hord⟩
  | .inside id rest, ⟨done, t, htop, hord, ht, hat⟩ =>
    exact ⟨done, t, htop, hr.ordering hb hord, ht,
      hr.inv.at_other hr.step hother.symm (hb.submitted id t ht) hat⟩
  | .waiting k, ⟨hac, hhanded, hover⟩ =>
    exact ⟨hac, fun id hid => hr.handed hb (hhanded id hid), fun id hid => hr.stays_over hb (hover id hid)⟩
  | .asking k, ⟨hac, hhanded, hover, t, ht, hasks⟩ =>
    exact ⟨hac, fun id hid => hr.handed hb (hhanded id hid), fun id hid => hr.stays_over hb (hover id hid), t, ht,
      hasks.other hr.inv hr.recorded hr.step hother.symm (hb.submitted k t ht)⟩
  | .returned true, ⟨hac, hover⟩ => exact ⟨hac, fun id hid => hr.stays_over hb (hover id hid)⟩
  | .returned false, h => exact h

end Runs

/-! ### Submitting a node -/

section Submit
variable {done rest : List ℕ} (hg : g.WellFormed) (hb : Base g s)
  (htop : g.Topological (done ++ id :: rest)) (hord : Ordering s done (id :: rest))

omit [DecidableEq Call] in
include htop in
theorem nodup_order : id ∉ done ∧ id ∉ rest := by
  have hnodup := htop.perm.nodup_iff.mpr List.nodup_range
  rw [List.nodup_append] at hnodup
  exact ⟨fun hmem => hnodup.2.2 id hmem id List.mem_cons_self rfl, (List.nodup_cons.mp hnodup.2.1).1⟩

include hg hb htop hord

/-- The node is put behind its predecessors. -/
theorem base_submit
    (hr : Runs cfg (.submit client ((g.predecessors id).map s.handles)) s.runtime r)
    (hpc : r.pc client = .acquiring s.runtime.submitted false) :
    Base g {s with
      runtime := r, submission := Function.update s.submission id (some s.runtime.submitted)} := by
  obtain ⟨hcount, hdeps⟩ := Runtime.Lifecycle.submit_inv hr.step hpc
  have hb' := hr.base hb
  have hid : s.submission id = none := hord.2 id List.mem_cons_self
  have hfresh : ∀ id', s.submission id' ≠ some s.runtime.submitted :=
    fun id' heq => (hb.submitted id' _ heq).ne rfl
  have hold : ∀ {id' t}, s.submission id' = some t → id' ≠ id := by
    intro id' t ht heq
    obtain rfl := heq
    cases hid.symm.trans ht
  refine ⟨fun id' t ht => ?_, fun id₁ id₂ t h₁ h₂ => ?_, fun id' t ht p hp => ?_⟩
  · change Function.update s.submission id _ id' = some t at ht
    by_cases heq : id' = id
    · subst heq
      rw [Function.update_self] at ht
      cases ht
      show s.runtime.submitted < r.submitted
      omega
    · rw [Function.update_of_ne heq] at ht
      exact hb'.submitted id' t ht
  · change Function.update s.submission id _ id₁ = some t at h₁
    change Function.update s.submission id _ id₂ = some t at h₂
    rw [Function.update_apply] at h₁ h₂
    split_ifs at h₁ h₂ with h₁id h₂id h₂id
    · rw [h₁id, h₂id]
    · cases h₁
      exact absurd h₂ (hfresh id₂)
    · cases h₂
      exact absurd h₁ (hfresh id₁)
    · exact hb.own id₁ id₂ t h₁ h₂
  · change Function.update s.submission id _ id' = some t at ht
    by_cases heq : id' = id
    · subst heq
      rw [Function.update_self] at ht
      cases ht
      obtain ⟨u, hu, hknown⟩ := hord.1 p (htop.behind done id' rest rfl p hp)
      obtain ⟨k, hk⟩ := List.mem_iff_getElem?.mp (hg.edge_iff.mp hp)
      have hdep : (r.sub s.runtime.submitted).dependencies[k]? = some (s.handles p) := by
        rw [hdeps, List.getElem?_map, hk]
        rfl
      refine ⟨u, k, (Function.update_of_ne (hold hu) _ _).trans hu, ?_⟩
      exact .of_known hr.inv_after (hknown.step hr.inv hr.step (hb.submitted p u hu)) hpc hdep
    · rw [Function.update_of_ne heq] at ht
      obtain ⟨u, k, hu, hbehind⟩ := hb'.behind id' t ht p hp
      exact ⟨u, k, (Function.update_of_ne (hold hu) _ _).trans hu, hbehind⟩

end Submit

/-! ### The call -/

omit [DecidableEq Call] in
/-- What `topological_order` returns, and what it says of the graph. -/
theorem of_returns (hg : g.WellFormed) {order : List ℕ} (h : Returns g.topological_order order) :
    (g.Acyclic → g.Topological order) ∧ (¬g.Acyclic → order = []) := by
  obtain ⟨order', ⟨fuel', hrun'⟩, hac, hcyc⟩ := (ordered hg).order
  obtain ⟨fuel, hrun⟩ := h
  have heq := (hrun (max fuel fuel') (le_max_left _ _)).symm.trans (hrun' _ (le_max_right _ _))
  obtain rfl := Option.some.inj heq
  exact ⟨hac, hcyc⟩

theorem node_count_pos (hne : g.nodes ≠ []) : 0 < g.node_count := List.length_pos_iff.mpr hne

/-- A graph without nodes has no cycle. -/
theorem acyclic_empty (hg : g.WellFormed) (hnil : g.nodes = []) : g.Acyclic := by
  intro id hcycle
  obtain ⟨p, _, hedge⟩ := Relation.TransGen.tail'_iff.mp hcycle
  have hlt := hg.lt p id hedge
  simp [node_count, hnil] at hlt

/-- The invariant of the call. -/
structure Inv (g : TaskGraph Desc) (client : Call) (s : State Call) : Prop where
  base : Base g s
  phase : PhaseOk g client s s.phase

namespace Inv

omit [DecidableEq Call] in
theorem initial : Inv g client SubmitAndWait.initial where
  base := ⟨nofun, nofun, nofun⟩
  phase _ := rfl

section Step
variable (h : Inv g client s) (hg : g.WellFormed)
include h

/-- The call has been in `submit_after`, and has returned. -/
theorem returns {rest : List ℕ} (hphase : s.phase = .inside id rest) (hcall : b.call = client)
    (hr : Runs cfg b s.runtime r) (hpc : r.pc client = .idle) :
    Inv g client {s with
      runtime := r, phase := .submitting rest
      handles := Function.update s.handles id (s.runtime.pc client).handle} := by
  subst hcall
  have hb' := hr.base h.base
  have hok := h.phase
  rw [hphase] at hok
  obtain ⟨done, t, htop, hord, ht, hat⟩ := hok
  obtain ⟨hdone, hrest⟩ := nodup_order htop
  refine ⟨hb'.elsewhere _ _, done ++ [id], by simpa using htop, fun id' hid' => ?_, hord.2⟩
  obtain hid' | hid' := List.mem_append.mp hid'
  · obtain ⟨t', ht', hknown⟩ := hr.handed h.base (hord.1 id' hid')
    have hne : id' ≠ id := fun heq => hdone (heq ▸ hid')
    refine ⟨t', ht', ?_⟩
    show Known r (Function.update s.handles id _ id') t'
    rwa [Function.update_of_ne hne]
  · obtain rfl := List.mem_singleton.mp hid'
    obtain hgoes | ⟨_, hknown⟩ := hr.inv.at_step hr.step hat
    · have hin := hgoes.inside
      rw [hpc] at hin
      cases hin
    · refine ⟨t, ht, ?_⟩
      show Known r (Function.update s.handles id' _ id') t
      rwa [Function.update_self]

include hg

theorem step (hreach : Reachable (Runtime.Lifecycle.sized Call cfg) s.runtime)
    (hs : Step cfg g client a s s') (hsized : a.Sized s) : Inv g client s' := by
  have hok := h.phase
  cases hs with
  | @other _ b r hother hr =>
    have hr : Runs cfg b s.runtime r := ⟨hreach, hr, hsized⟩
    exact ⟨hr.base h.base, hr.phase h.base hother hok⟩
  | empty hphase hnil =>
    refine ⟨h.base.elsewhere _ _, acyclic_empty hg hnil, fun id hid => ?_⟩
    simp [node_count, hnil] at hid
  | cyclic hphase hne horder =>
    rw [hphase] at hok
    refine ⟨h.base.elsewhere _ _, fun hac => ?_, hok⟩
    have hlength := ((of_returns hg horder).1 hac).perm.length_eq
    have hpos := node_count_pos hne
    simp at hlength
    omega
  | @order _ order hphase hne horder hsome =>
    rw [hphase] at hok
    have hac : g.Acyclic := by
      by_contra hcyc
      exact hsome ((of_returns hg horder).2 hcyc)
    exact ⟨h.base.elsewhere _ _, [], (of_returns hg horder).1 hac,
      fun id hid => absurd hid List.not_mem_nil, fun id _ => hok id⟩
  | @submit_after _ id order r hphase hr hpc =>
    rw [hphase] at hok
    obtain ⟨done, htop, hord⟩ := hok
    have hr : Runs cfg _ s.runtime r := ⟨hreach, hr, hsized⟩
    obtain ⟨hdone, hrest⟩ := nodup_order htop
    refine ⟨(base_submit hg h.base htop hord hr hpc).elsewhere _ _, done, s.runtime.submitted, htop, ⟨fun id' hid' => ?_,
      fun id' hid' => ?_⟩, Function.update_self .., ⟨?_, ?_⟩⟩
    · obtain ⟨t, ht, hknown⟩ := hr.handed h.base (hord.1 id' hid')
      have hne : id' ≠ id := fun heq => hdone (heq ▸ hid')
      exact ⟨t, (Function.update_of_ne hne _ _).trans ht, hknown⟩
    · have hne : id' ≠ id := fun heq => hrest (heq ▸ hid')
      exact (Function.update_of_ne hne _ _).trans (hord.2 id' (List.mem_cons_of_mem id hid'))
    · show (r.pc client).inside = _
      rw [hpc]
      rfl
    · intro hretiring
      rw [hpc] at hretiring
      cases hretiring
  | @inside _ id order b r hphase hcall hr hpc =>
    subst hcall
    rw [hphase] at hok
    obtain ⟨done, t, htop, hord, ht, hat⟩ := hok
    have hr : Runs cfg b s.runtime r := ⟨hreach, hr, hsized⟩
    refine ⟨hr.base h.base, ?_⟩
    show PhaseOk g b.call _ s.phase
    rw [hphase]
    obtain hgoes | ⟨hidle, _⟩ := hr.inv.at_step hr.step hat
    · exact ⟨done, t, htop, hr.ordering h.base hord, ht, hgoes⟩
    · exact absurd hidle hpc
  | returns hphase hcall hr hpc => exact h.returns hphase hcall ⟨hreach, hr, hsized⟩ hpc
  | submitted hphase =>
    rw [hphase] at hok
    obtain ⟨done, htop, hord⟩ := hok
    rw [List.append_nil] at htop
    refine ⟨h.base.elsewhere _ _, htop.acyclic hg, fun id hid => ?_,
      fun id hid => absurd hid (Nat.not_lt_zero id)⟩
    exact hord.1 id (htop.perm.mem_iff.mpr (List.mem_range.mpr hid))
  | @ask _ k r before hphase hk hr hpc =>
    rw [hphase] at hok
    obtain ⟨hac, hhanded, hover⟩ := hok
    have hr : Runs cfg _ s.runtime r := ⟨hreach, hr, hsized⟩
    have hb' := hr.base h.base
    obtain ⟨t, ht, hknown⟩ := hr.handed h.base (hhanded k hk)
    refine ⟨hb'.elsewhere _ _, hac, fun id hid => hr.handed h.base (hhanded id hid),
      fun id hid => hr.stays_over h.base (hover id hid), t, ht, ?_, ?_, ?_⟩
    · show (r.pc client).asked = _
      rw [hpc]
      rfl
    · show (r.pc client).awaits = _
      rw [hpc]
      rfl
    · refine hknown.imp id fun hissued => hissued.imp fun e hx => ⟨hx, ?_⟩
      show Runtime.Lifecycle.Answer r _ t e (r.pc client)
      rw [hpc]
      trivial
  | @asking _ k r hphase hr hpc =>
    rw [hphase] at hok
    obtain ⟨hac, hhanded, hover, t, ht, hasks⟩ := hok
    have hr : Runs cfg _ s.runtime r := ⟨hreach, hr, hsized⟩
    refine ⟨hr.base h.base, ?_⟩
    show PhaseOk g client _ s.phase
    rw [hphase]
    refine ⟨hac, fun id hid => hr.handed h.base (hhanded id hid), fun id hid => hr.stays_over h.base (hover id hid),
      t, ht, ?_⟩
    exact (hasks.own hr.inv hr.recorded hr.step (h.base.submitted k t ht)).resolve_right hpc
  | @answered _ k r o x before result hphase hpc hr hidle =>
    rw [hphase] at hok
    obtain ⟨hac, hhanded, hover, t, ht, hasks⟩ := hok
    have hr : Runs cfg _ s.runtime r := ⟨hreach, hr, hsized⟩
    have hb' := hr.base h.base
    refine ⟨hb'.elsewhere _ _, hac, fun id hid => hr.handed h.base (hhanded id hid),
      fun id hid => ?_⟩
    cases result with
    | false => exact hr.stays_over h.base (hover id hid)
    | true =>
      obtain hlt | rfl := Nat.lt_succ_iff_lt_or_eq.mp hid
      · exact hr.stays_over h.base (hover id hlt)
      · exact hr.stays_over h.base ⟨t, ht, hasks.answered hr.recorded hpc⟩
  | done hphase =>
    rw [hphase] at hok
    exact ⟨h.base.elsewhere _ _, hok.1, hok.2.2⟩

end Step

theorem reachable (hg : g.WellFormed) (hr : Reachable ((system cfg g client).restrict Act.Sized) s) :
    Inv g client s := by
  induction hr with
  | initial hs =>
    subst hs
    exact initial
  | step hr hs ih => exact ih.step hg (runtime_reachable hr) hs.1 hs.2

/-- What the invariant says of the call. -/
theorem correct (h : Inv g client s) (hg : g.WellFormed)
    (hr : Reachable (Runtime.Lifecycle.sized Call cfg) s.runtime) : Correct g s := by
  have hinv := Runtime.Lifecycle.Inv.reachable hr
  have hok := h.phase
  refine ⟨fun id t ht => ⟨ht, fun id' => h.base.own id id' t ht, hinv.invoked_le (h.base.submitted id t ht)⟩,
    fun id t ht hpos p hp => ?_, fun hac => ⟨fun hphase => ?_, fun hphase id hid => ?_⟩, fun hcyc => ?_⟩
  · obtain ⟨u, k, hu, hbehind⟩ := h.base.behind id t ht p hp
    exact ⟨u, hu, hbehind.started hpos⟩
  · rw [hphase] at hok
    exact hok.1 hac
  · rw [hphase] at hok
    obtain ⟨t, ht, hend⟩ := hok.2 id hid
    exact ⟨t, ht, hend, Runtime.Lifecycle.invoked_of_ended hr hend⟩
  · cases hphase : s.phase with
    | before =>
      rw [hphase] at hok
      exact ⟨.inl rfl, hok⟩
    | submitting rest =>
      rw [hphase] at hok
      obtain ⟨done, htop, _⟩ := hok
      exact absurd (htop.acyclic hg) hcyc
    | inside id rest =>
      rw [hphase] at hok
      obtain ⟨done, t, htop, _⟩ := hok
      exact absurd (htop.acyclic hg) hcyc
    | waiting k | asking k =>
      rw [hphase] at hok
      exact absurd hok.1 hcyc
    | returned result =>
      rw [hphase] at hok
      cases result with
      | true => exact absurd hok.1 hcyc
      | false => exact ⟨.inr rfl, hok.2⟩

end Inv

/-- A graph with a cycle is refused. -/
theorem refuses (hg : g.WellFormed) (hcyc : ¬g.Acyclic) (hphase : s.phase = .before) :
    Step cfg g client .client s {s with phase := .returned false} := by
  obtain ⟨order, horder, _, hnone⟩ := (ordered hg).order
  refine .cyclic hphase (fun hempty => hcyc fun id hid => ?_) (hnone hcyc ▸ horder)
  obtain ⟨after, hedge, _⟩ := Relation.TransGen.head'_iff.mp hid
  have hlt := hg.lt id after hedge
  rw [node_count, hempty] at hlt
  cases hlt

/-- **`submit_and_wait` is correct**, for a graph and in runs in which nothing is counted beyond
32 bits. -/
theorem submit_and_wait_correct (hg : Reachable ((building Desc).restrict Fits) g)
    (h : Reachable ((system cfg g client).restrict Act.Sized) s) :
    Correct g s ∧ (¬g.Acyclic → s.phase = .before →
      Step cfg g client .client s {s with phase := .returned false}) :=
  ⟨(Inv.reachable (wellFormed hg) h).correct (wellFormed hg) (runtime_reachable h),
    fun hcyc hphase => refuses (wellFormed hg) hcyc hphase⟩

/-! ### Two nodes, and a worker -/

namespace Single
open Runtime.Lifecycle.Pair (pool first second)

theorem order : Returns (parallel 1).topological_order [0, 1] := by
  refine ⟨4, fun fuel hge => ?_⟩
  obtain ⟨k, rfl⟩ := Nat.exists_eq_add_of_le' hge
  rfl

/-- The client is `true`. -/
abbrev Run (s : State Bool) : Prop := Reachable ((system pool (parallel 1) true).restrict Act.Sized) s

variable {s : State Bool} {r : Runtime.Lifecycle.State Bool} {id k : ℕ} {rest : List ℕ}

theorem Run.worker (h : Run s) (hs : Runtime.Lifecycle.Step pool (.step false) s.runtime r) :
    Run {s with runtime := r} :=
  Reachable.step h ⟨.other (by simp) hs, trivial⟩

theorem Run.submits (h : Run s) (hphase : s.phase = .submitting (id :: rest))
    (hs : Runtime.Lifecycle.Step pool (.submit true (((parallel 1).predecessors id).map s.handles)) s.runtime r)
    (hpc : r.pc true = .acquiring s.runtime.submitted false) (hlength : ((parallel 1).predecessors id).length < word) :
    Run {s with
      runtime := r, phase := .inside id rest
      submission := Function.update s.submission id (some s.runtime.submitted)} :=
  Reachable.step h ⟨.submit_after hphase hs hpc, show (List.map _ _).length < word by rwa [List.length_map]⟩

theorem Run.inside (h : Run s) (hphase : s.phase = .inside id rest)
    (hs : Runtime.Lifecycle.Step pool (.step true) s.runtime r) (hpc : r.pc true ≠ .idle) : Run {s with runtime := r} :=
  Reachable.step h ⟨.inside hphase rfl hs hpc, trivial⟩

theorem Run.asks {before : ℕ → Bool} (h : Run s) (hphase : s.phase = .waiting k) (hk : k < (parallel 1).node_count)
    (hs : Runtime.Lifecycle.Step pool (.step true) s.runtime r) (hpc : r.pc true = .asking none (s.handles k) before) :
    Run {s with runtime := r, phase := .asking k} :=
  Reachable.step h ⟨.ask hphase hk hs hpc, trivial⟩

theorem Run.asking (h : Run s) (hphase : s.phase = .asking k)
    (hs : Runtime.Lifecycle.Step pool (.step true) s.runtime r) (hpc : r.pc true ≠ .idle) : Run {s with runtime := r} :=
  Reachable.step h ⟨.asking hphase hs hpc, trivial⟩

/-- The worker executes both, and then the client is answered. -/
theorem returned : ∃ s, Run s ∧ s.phase = .returned true ∧ s.submission 1 = some 1 ∧ (s.runtime.sub 1).invoked = 1 ∧
    (s.runtime.sub 1).dependencies = [first] := by
  have h : Run initial := .initial rfl
  have h : Run _ := h.step (l := Act.client) ⟨.order rfl (by decide) order (by decide), trivial⟩
  -- The first node.
  have h := h.submits (by rfl : _ = Phase.submitting [0, 1]) (.submit _ (by rfl)) (by rfl) (by decide)
  have h := h.inside (by rfl) (.acquire (c := true) 0 (by rfl) (by decide) (by rfl)) (by exact nofun)
  have h := h.inside (by rfl) (.open_successors (c := true) (by rfl)) (by exact nofun)
  have h := h.inside (by rfl) (.create (c := true) (by rfl)) (by exact nofun)
  have h := h.inside (by rfl) (.publish (c := true) (by rfl)) (by exact nofun)
  have h : Run _ := h.step ⟨.returns (by rfl) rfl (.enqueue_ready (c := true) (by rfl)) (by rfl), trivial⟩
  -- The second, which is registered with it.
  have h := h.submits (by rfl : _ = Phase.submitting [1]) (.submit _ (by rfl)) (by rfl) (by decide)
  have h := h.inside (by rfl) (.acquire (c := true) 1 (by rfl) (by decide) (by rfl)) (by exact nofun)
  have h := h.inside (by rfl) (.open_successors (c := true) (by rfl)) (by exact nofun)
  have h := h.inside (by rfl) (.create (c := true) (by rfl)) (by exact nofun)
  have h := h.inside (by rfl) (.storeWaiting (c := true) (t := 1) (h := second) (by rfl)) (by exact nofun)
  have h := h.inside (by rfl) (.storePending (c := true) (t := 1) (h := second) (by rfl)) (by exact nofun)
  have h := h.inside (by rfl) (.lookup (c := true) (t := 1) (h := second) (k := 0) (d := first) (by rfl) (by rfl)
    ⟨rfl, by decide, by rfl⟩) (by exact nofun)
  have h := h.inside (by rfl) (.add (c := true) (t := 1) (h := second) (k := 0) (d := first) (by rfl) (by rfl) (by rfl))
    (by exact nofun)
  have h : Run _ := h.step ⟨.returns (by rfl) rfl (.unguard (c := true) (t := 1) (h := second) (by rfl)
    (by exact Nat.succ_ne_self 1)) (by rfl), trivial⟩
  have h : Run _ := h.step (l := Act.client) ⟨.submitted (by rfl), trivial⟩
  -- The worker executes the first, and enqueues the second.
  have h := h.worker (.dequeue (c := false) first (by rfl) (by exact Multiset.mem_cons_self first 0))
  have h := h.worker (.execute (c := false) (by rfl) ⟨rfl, by decide, by rfl⟩)
  have h := h.worker (.exchange (c := false) (by rfl))
  have h := h.worker (.call (c := false) (by rfl) (by rfl))
  have h := h.worker (.ends (c := false) (by rfl))
  have h := h.worker (.take_successors (c := false) (by rfl))
  have h := h.worker (.complete (c := false) (by rfl))
  have h := h.worker (.destroy (c := false) (by rfl))
  have h := h.worker (.bump (c := false) (by rfl))
  have h := h.worker (.reset_successors (c := false) (by rfl))
  have h := h.worker (.storeFree (c := false) (by rfl))
  have h := h.worker (.list (c := false) (by rfl))
  have h := h.worker (.dependent (c := false) (t := 0) (d := second) (e := ⟨1, 0⟩) (by rfl) ⟨rfl, by decide, by rfl⟩)
  have h := h.worker (.subtractLast (c := false) (d := second) (by rfl) (by rfl))
  have h := h.worker (.drive (c := false) (by rfl))
  have h := h.worker (.pass (c := false) (by rfl))
  have h := h.worker (.looped (c := false) (by rfl))
  have h := h.worker (.retire (c := false) (by rfl))
  -- It executes the second.
  have h := h.worker (.dequeue (c := false) second (by rfl)
    (by exact Multiset.mem_cons_self second ((first ::ₘ 0).erase first)))
  have h := h.worker (.execute (c := false) (by rfl) ⟨rfl, by decide, by rfl⟩)
  have h := h.worker (.exchange (c := false) (by rfl))
  have h := h.worker (.call (c := false) (by rfl) (by rfl))
  have h := h.worker (.ends (c := false) (by rfl))
  have h := h.worker (.take_successors (c := false) (by rfl))
  have h := h.worker (.complete (c := false) (by rfl))
  have h := h.worker (.destroy (c := false) (by rfl))
  have h := h.worker (.bump (c := false) (by rfl))
  -- The client asks for both.
  have h := h.asks (by rfl : _ = Phase.waiting 0) (by decide) (.ask _ (by rfl)) (by rfl)
  have h := h.asking (by rfl : _ = Phase.asking 0) (.askStale (c := true) (by rfl) (fun hr => by cases hr.2.2)) (by exact nofun)
  have h : Run _ :=
    h.step ⟨.answered (by rfl : _ = Phase.asking 0) (by rfl) (.answer (c := true) (by rfl)) (by rfl), trivial⟩
  have h := h.asks (by rfl : _ = Phase.waiting 1) (by decide) (.ask _ (by rfl)) (by rfl)
  have h := h.asking (by rfl : _ = Phase.asking 1) (.askStale (c := true) (by rfl) (fun hr => by cases hr.2.2)) (by exact nofun)
  have h : Run _ :=
    h.step ⟨.answered (by rfl : _ = Phase.asking 1) (by rfl) (.answer (c := true) (by rfl)) (by rfl), trivial⟩
  have h : Run _ := h.step (l := Act.client) ⟨.done (by rfl), trivial⟩
  exact ⟨_, h, by rfl, by rfl, by rfl, by rfl⟩

end Single

/-- Two nodes that wait for one another. -/
def cycle : TaskGraph Unit := (parallel 1).add_edge 1 0

theorem not_acyclic_cycle : ¬cycle.Acyclic := by
  intro h
  have hforth : cycle.Edge 0 1 := by
    unfold Edge
    decide
  have hback : cycle.Edge 1 0 := by
    unfold Edge
    decide
  exact h 0 (.tail (.single hforth) hback)

open Single in
/-- A graph with an edge is submitted and has run; one with a cycle is refused. -/
theorem submit_and_wait_correct_both :
    (∃ s : State Bool, Run s ∧ s.phase = .returned true ∧ (s.runtime.sub 1).invoked = 1 ∧
      (s.runtime.sub 1).dependencies = [⟨0, 0⟩] ∧ Correct (parallel 1) s) ∧
    Correct cycle {(initial : State Unit) with phase := .returned false} := by
  obtain ⟨s, hrun, hphase, _, hinvoked, hdependencies⟩ := returned
  refine ⟨⟨s, hrun, hphase, hinvoked, hdependencies, (submit_and_wait_correct (parallel_fits (by decide)) hrun).1⟩, ?_⟩
  have hbuilt : Reachable ((building Unit).restrict Fits) cycle :=
    (parallel_fits (by decide)).step ⟨.edge (by decide) (by decide), by unfold Fits; decide⟩
  have hstart : Reachable ((system ⟨0, Nat.zero_le _⟩ cycle ()).restrict Act.Sized) initial := .initial rfl
  have hrefuses := (submit_and_wait_correct hbuilt hstart).2 not_acyclic_cycle rfl
  exact (submit_and_wait_correct hbuilt (hstart.step ⟨hrefuses, trivial⟩)).1

/-! ### More edges than can be counted -/

/-- The one edge of the graph. -/
theorem edge_parallel (k : ℕ) {p : ℕ} (h : (parallel k).Edge p id) : p = 0 ∧ id = 1 := by
  induction k with
  | zero =>
    have hnone : (parallel 0).successors p = [] := by
      rw [parallel, successors_add, successors_add]
      rfl
    rw [Edge, hnone] at h
    cases h
  | succ k ih =>
    obtain ⟨hcount, _⟩ := parallel_eq k
    obtain ⟨_, _, hsucc⟩ := add_edge_of_lt (hcount ▸ Nat.two_pos) (hcount ▸ Nat.one_lt_two) Nat.zero_ne_one
    rw [Edge, parallel, hsucc] at h
    by_cases hp : p = 0
    · subst hp
      rw [Function.update_self] at h
      obtain h | h := List.mem_append.mp h
      · exact ih h
      · exact ⟨rfl, List.mem_singleton.mp h⟩
    · rw [Function.update_of_ne hp] at h
      exact absurd (ih h).1 hp

theorem acyclic_parallel (k : ℕ) : (parallel k).Acyclic := by
  intro id hcycle
  obtain ⟨_, hfirst, _⟩ := Relation.TransGen.head'_iff.mp hcycle
  obtain ⟨_, _, hlast⟩ := Relation.TransGen.tail'_iff.mp hcycle
  have h₀ := (edge_parallel k hfirst).1
  have h₁ := (edge_parallel k hlast).2
  omega

/-- Kahn's algorithm with so many edges still to be visited. -/
def visiting (k j : ℕ) : Kahn where
  remaining_predecessors := Function.update (Kahn.initial (parallel k)).remaining_predecessors 1 (j % word)
  ready := if j = 0 then [1, 1] else [1]
  order := [0]
  visiting := List.replicate j 1

theorem next_visiting {k j : ℕ} (hj : j + 1 ≤ word) :
    (visiting k (j + 1)).next (parallel k) = some (visiting k j) := by
  have hdec : ((j + 1) % word + (word - 1)) % word = j % word := by
    unfold word at *
    omega
  have hzero : j % word = 0 ↔ j = 0 := by
    rw [Nat.mod_eq_of_lt (by omega)]
  have hvisit : (visiting k (j + 1)).next (parallel k) =
      some ((visiting k (j + 1)).visit 1 (List.replicate j 1)) := rfl
  rw [hvisit, Kahn.visit, visiting, visiting]
  simp only [Function.update_self, hdec, Function.update_idem, hzero, Nat.succ_ne_zero, if_false]
  split <;> rfl

theorem run_visiting {k : ℕ} (j fuel : ℕ) (hj : j ≤ word) :
    Kahn.run (parallel k) (fuel + j) (visiting k j) = Kahn.run (parallel k) fuel (visiting k 0) := by
  induction j with
  | zero => rfl
  | succ j ih =>
    rw [← Nat.add_assoc, Kahn.run, next_visiting hj]
    exact ih (by omega)

/-- The second node is emitted twice. -/
theorem run_parallel {k : ℕ} (hk : k = word) (fuel : ℕ) :
    ∃ s, Kahn.run (parallel k) (fuel + 3 + k + 1) (Kahn.initial (parallel k)) = some s ∧ s.order = [0, 1, 1] := by
  have hmod : k % word = 0 := by rw [hk, Nat.mod_self]
  have hlast : (parallel k).successors 1 = [] := by
    rw [List.eq_nil_iff_forall_not_mem]
    intro id hid
    exact absurd (edge_parallel k hid).1 Nat.one_ne_zero
  have hfirst : (Kahn.initial (parallel k)).next (parallel k) = some (visiting k k) := by
    have hne : k ≠ 0 := by
      unfold word at hk
      omega
    have hcounter : Function.update (Kahn.initial (parallel k)).remaining_predecessors 1 (k % word) =
        (Kahn.initial (parallel k)).remaining_predecessors := by
      rw [hmod, Function.update_eq_self_iff, (parallel_ready hmod).1]
    rw [parallel_next hmod, visiting, hcounter, if_neg hne]
  rw [Kahn.run, hfirst]
  show ∃ s, Kahn.run (parallel k) (fuel + 3 + k) (visiting k k) = some s ∧ _
  rw [run_visiting k _ hk.le]
  refine ⟨{visiting k 0 with ready := [], order := [0, 1, 1]}, ?_, rfl⟩
  simp [Kahn.run, Kahn.next, visiting, hlast]

theorem returns_parallel {k : ℕ} (hk : k = word) : Returns (parallel k).topological_order [] := by
  refine ⟨3 + k + 1, fun fuel hfuel => ?_⟩
  obtain ⟨extra, rfl⟩ := Nat.exists_eq_add_of_le hfuel
  obtain ⟨s, hrun, horder⟩ := run_parallel hk extra
  rw [topological_order, show 3 + k + 1 + extra = extra + 3 + k + 1 by omega, hrun, Option.map_some, horder,
    (parallel_eq k).1]
  rfl

/-- With `2 ^ 32` edges from one node to another the call refuses the graph as cyclic. -/
theorem submit_and_wait_refuses :
    ∃ s : State Unit, Reachable (building Unit) (parallel word) ∧
      Reachable ((system ⟨0, Nat.zero_le _⟩ (parallel word) ()).restrict Act.Sized) s ∧
      ¬Correct (parallel word) s := by
  have hne : (parallel word).nodes ≠ [] := by
    intro hnil
    have hcount := (parallel_eq word).1
    rw [node_count, hnil] at hcount
    cases hcount
  have hstep : Step ⟨0, Nat.zero_le _⟩ (parallel word) () .client (initial : State Unit)
      {initial with phase := .returned false} := .cyclic rfl hne (returns_parallel rfl)
  exact ⟨_, parallel_built word, (Reachable.initial rfl).step ⟨hstep, trivial⟩,
    fun h => (h.acyclic (acyclic_parallel word)).1 rfl⟩

end Thunderbolt.Graph.SubmitAndWait
