import Thunderbolt.Runtime.LifecycleProofs

/-! Dependencies over a run: their edges, and the counters of waiting tasks.

An edge is in the successor list it was accepted by, then with the call that took
that list, and is subtracted once. A task stops waiting when its last edge, or its
guard after all edges, is subtracted. -/
namespace Thunderbolt.Runtime.Lifecycle
open Concurrent

variable {Call : Type} [DecidableEq Call] {cfg : PoolConfig} {a : Act Call} {s s' : State Call}

/-- The dependency list of a submission has fewer than `2^32` entries. -/
def Act.Sized : Act Call → Prop
  | submit _ dependencies => dependencies.length < word
  | _ => True

/-- The runs in which dependency lists have fewer than `2^32` entries. -/
abbrev sized (Call : Type) [DecidableEq Call] (cfg : PoolConfig) : System (State Call) (Act Call) :=
  (system Call cfg).restrict fun a _ => a.Sized

/-- Destroying a body does not call the runtime, and a dependency list has fewer than
`2^32 - 1` entries. -/
def Act.Plain : Act Call → Prop
  | submit _ dependencies => dependencies.length < word - 1
  | reenter _ => False
  | step _ => True

omit [DecidableEq Call] in
theorem Act.Plain.sized (h : a.Plain) : a.Sized := by
  cases a with
  | submit c dependencies => exact h.trans_le (Nat.sub_le _ _)
  | reenter c | step c => trivial

omit [DecidableEq Call] in
theorem Act.Plain.ne_reenter (h : a.Plain) (c : Call) : a ≠ .reenter c := by
  intro heq
  obtain rfl := heq
  exact h

/-- Those runs. -/
abbrev plain (Call : Type) [DecidableEq Call] (cfg : PoolConfig) : System (State Call) (Act Call) :=
  (system Call cfg).restrict fun a _ => a.Plain

namespace Advance
variable {c : Call} {x y : Submission Call}

omit [DecidableEq Call]

theorem counts (h : Advance c x y) : x.stage.counts = true := by
  cases h
  case drive hst => obtain ⟨hst, _⟩ | hst | hst | hst := hst <;> rw [hst] <;> rfl
  case call hst | retire hst => obtain hst | hst := hst <;> rw [hst] <;> rfl
  all_goals simp_all [Stage.counts]

theorem early (h : Advance c x y) (hy : y.stage.Early) : x.stage.Early := by
  cases h
  case issue hst =>
    rw [hst]
    trivial
  case complete hst =>
    rw [show (_ : Submission Call).stage = _ from hst] at hy
    exact hy.elim
  all_goals exact hy.elim

/-- How a task comes to wait, or goes on waiting. -/
theorem stops (h : Advance c x y) (hx : x.stage.Waits) (hy : ¬y.stage.Waits) : y.stage = .driven c := by
  cases h
  case drive => rfl
  case unguard => exact absurd trivial hy
  case complete => exact absurd hx hy
  case call hst | retire hst => obtain hst | hst := hst <;> rw [hst] at hx <;> exact hx.elim
  all_goals
    exfalso
    simp_all [Stage.Waits]

end Advance

/-! ### The counter of tasks -/

namespace Inv

/-- What a step makes of `outstanding_` and the submissions it counts. -/
theorem counted_step (h : Inv cfg s) (hs : Step cfg a s s') :
    (s'.outstanding = s.outstanding ∧ s'.submitted = s.submitted ∧
      ∀ t, (s'.sub t).stage.counts = (s.sub t).stage.counts) ∨
    (s'.outstanding = s.outstanding + 1 ∧ s'.submitted = s.submitted + 1 ∧
      ∃ deps, s'.sub = Function.update s.sub s.submitted (.enter a.call deps)) ∨
    ∃ t x, s'.outstanding = s.outstanding - 1 ∧ s'.submitted = s.submitted ∧
      s'.sub = Function.update s.sub t x ∧ (s.sub t).stage.counts = true ∧ x.stage = .retired := by
  have hsame : (∀ t, s'.sub t ≠ s.sub t → (s'.sub t).stage.counts = true) →
      s'.submitted = s.submitted → ∀ t, (s'.sub t).stage.counts = (s.sub t).stage.counts := by
    intro hcounts hsub t
    obtain heq | hadv | ⟨_, hnew, _⟩ := h.advance hs t
    · rw [heq]
    · by_cases hne : s'.sub t = s.sub t
      · rw [hne]
      · rw [hcounts t hne, hadv.counts]
    · omega
  cases hs
  case submit | submit_emplace => exact .inr (.inl ⟨rfl, rfl, _, rfl⟩)
  case retire hpc =>
    refine .inr (.inr ⟨_, _, rfl, rfl, rfl, ?_, rfl⟩)
    obtain hst | hst : _ ∨ _ := h.at_pc hpc <;> rw [hst] <;> rfl
  case dequeue c x _ hx =>
    obtain ⟨t, _, _, heq⟩ := h.claim_eq c hx
    refine .inl ⟨rfl, rfl, hsame (fun u hne => ?_) rfl⟩
    rw [(hit heq hne).2]
    rfl
  case bump next hpc =>
    refine .inl ⟨rfl, rfl, hsame (fun u hne => ?_) rfl⟩
    cases next with
    | dependents t l =>
      rw [(hit (by rfl) hne).2]
      rfl
    | rethrow t => exact absurd rfl hne
  case complete hpc =>
    refine .inl ⟨rfl, rfl, hsame (fun u hne => ?_) rfl⟩
    rw [(hit (by rfl) hne).2]
    show (s.sub _).stage.counts = true
    rw [(h.at_pc hpc).1]
    rfl
  case create | construct | constructThrows | constructInlineThrows | publish | enqueue_ready |
      storePending | unguardLast | unguard | run_inline | inlineEnds | call | ends | subtractLast |
      pass =>
    refine .inl ⟨rfl, rfl, hsame (fun u hne => ?_) rfl⟩
    rw [(hit (by rfl) hne).2]
    rfl
  all_goals exact .inl ⟨rfl, rfl, fun _ => rfl⟩

theorem outstanding_step (h : Inv cfg s) (hs : Step cfg a s s') :
    s'.outstanding = Nat.count (fun t => (s'.sub t).stage.counts = true) s'.submitted := by
  obtain ⟨hout, hsub, hsame⟩ | ⟨hout, hsub, deps, heq⟩ | ⟨t, x, hout, hsub, heq, hold, hnew⟩ :=
    h.counted_step hs
  · rw [hout, hsub, h.outstanding]
    exact congrArg Nat.cast (natCount_congr fun k _ => by rw [hsame k])
  · have hcount : Nat.count (fun t => (s'.sub t).stage.counts = true) s.submitted =
        Nat.count (fun t => (s.sub t).stage.counts = true) s.submitted := by
      refine natCount_congr fun k hk => ?_
      rw [heq, Function.update_of_ne hk.ne]
    rw [hout, hsub, h.outstanding, Nat.count_succ, hcount, if_pos]
    · push_cast
      rfl
    · rw [heq, Function.update_self]
      rfl
  · have ht : t < s.submitted := by
      by_contra hle
      rw [(h.fresh t (Nat.le_of_not_lt hle)).1] at hold
      cases hold
    have hcount := natCount_remove (p := fun t => (s.sub t).stage.counts = true)
      (q := fun t => (s'.sub t).stage.counts = true) ht hold (by simp [heq, hnew, Stage.counts])
      (fun k hk => by rw [heq, Function.update_of_ne hk])
    rw [hout, hsub, h.outstanding, hcount]
    push_cast
    omega

/-! ### Edges -/

/-- A dependency list does not change. -/
theorem dependencies_step (h : Inv cfg s) (hs : Step cfg a s s') {t : ℕ} (ht : t < s.submitted) :
    (s'.sub t).dependencies = (s.sub t).dependencies := by
  obtain heq | hadv | ⟨rfl, _⟩ := h.advance hs t
  · rw [heq]
  · exact hadv.dependencies
  · omega

/-- An edge that was processed belongs to a submission. -/
theorem edge_submitted (h : Inv cfg s) {e : Edge} (he : s.edge e ≠ .unprocessed) :
    e.task < s.submitted := by
  by_contra hle
  exact he ((h.fresh e.task (Nat.le_of_not_lt hle)).2.2 e.position)

theorem length_step (h : Inv cfg s) (hs : Step cfg a s s') (hsized : a.Sized) (t : ℕ) :
    (s'.sub t).dependencies.length < word := by
  obtain heq | hadv | ⟨_, _, deps, ha, heq⟩ := h.advance hs t
  · rw [heq]
    exact h.length t
  · rw [hadv.dependencies]
    exact h.length t
  · rw [heq]
    rw [ha] at hsized
    exact hsized

/-- What a step of the call `c` can make of an edge. -/
inductive EdgeStep (s s' : State Call) (c : Call) (e : Edge) : Prop where
  | same : s'.edge e = s.edge e → EdgeStep s s' c e
  | list (x d : TaskHandle) : s.edge e = .unprocessed → s'.edge e = .listed d.index →
      (s.sub e.task).stage = .registering c → (s.sub e.task).dependencies[e.position]? = some d →
      s'.sub = s.sub → (s.slots d.index).generation = d.generation →
      (s'.slots d.index).successors.entries = (s.slots d.index).successors.entries ++ [(x, e)] →
      (s'.slots d.index).place = (s.slots d.index).place → EdgeStep s s' c e
  | take (i t : ℕ) : s.edge e = .listed i → s'.edge e = .taken c →
      (s'.slots i).successors.entries = [] → (s.sub t).stage = .ended c →
      (s.slots i).place = .held t → EdgeStep s s' c e
  | settle (x : TaskHandle) : s.edge e = .unprocessed → s'.edge e = .settled →
      (s.sub e.task).stage = .registering c → s.pc c = .refused e.task x e.position →
      EdgeStep s s' c e
  | subtract : s.edge e = .taken c → s'.edge e = .settled →
      e ∉ (s'.pc c).entries.map Prod.snd → EdgeStep s s' c e

theorem edgeStep (h : Inv cfg s) (hs : Step cfg a s s') (e : Edge) : EdgeStep s s' a.call e := by
  cases hs
  case add t x k d l hpc hd hadd =>
    obtain ⟨hst, _, hlt, hedge⟩ := h.at_pc hpc
    rcases eq_or_ne e ⟨t, k⟩ with rfl | hne
    · have heq := Successors.tryAdd_eq (s.slots d.index).successors (s.slots d.index).generation
        d.generation (x, ⟨t, k⟩)
      rw [hadd] at heq
      obtain ⟨_, hgen⟩ : _ ∧ (s.slots d.index).generation = d.generation := by simpa using heq.1.symm
      exact .list x d ((hedge k hlt).mpr le_rfl) (by simp) hst hd rfl hgen
        (by simpa [← heq.1] using heq.2) (by simp)
    · exact .same (by simp [hne])
  case settle t x k hpc =>
    obtain ⟨hst, _, hlt, hedge⟩ := h.at_pc hpc
    rcases eq_or_ne e ⟨t, k⟩ with rfl | hne
    · exact .settle x ((hedge k hlt).mpr le_rfl) (by simp) hst hpc
    · exact .same (by simp [hne])
  case take_successors c t x hpc =>
    by_cases hmem : e ∈ (s.slots x.index).successors.entries.map Prod.snd
    · obtain ⟨p, hp, rfl⟩ := List.mem_map.mp hmem
      obtain ⟨hst, hof⟩ := h.at_pc hpc
      exact .take x.index t ((h.listed x.index).edge p hp) (if_pos hmem) (by simp) hst
        (h.place hof (by rw [hst]; trivial))
    · exact .same (if_neg hmem)
  case subtract c t d e' rest hpc _ | subtractLast c t d e' rest hpc _ =>
    have htaken := h.taken c
    rw [hpc] at htaken
    rcases eq_or_ne e e' with rfl | hne
    · refine .subtract (h.subtracting hpc).1 (by simp) ?_
      simpa [Pc.entries] using (List.nodup_cons.mp htaken.nodup).1
    · exact .same (by simp [hne])
  all_goals exact .same rfl

/-- Entries whose edges stay where they are, or move together. -/
theorem entries_keep (h : Inv cfg s) (hs : Step cfg a s s') {x y : EdgeState Call} {l : Taken}
    (hl : Entries s x l) (hx : x ≠ .unprocessed) (hedge : ∀ p ∈ l, s'.edge p.2 = y) :
    Entries s' y l where
  nodup := hl.nodup
  edge := hedge
  position p hp := by
    rw [h.dependencies_step hs (h.edge_submitted (by rw [hl.edge p hp]; exact hx))]
    exact hl.position p hp
  of p hp := h.of_step hs (hl.of p hp)

omit [DecidableEq Call] in
theorem entries_sublist {x : EdgeState Call} {l m : Taken} (hl : Entries s x l) (hm : m.Sublist l) :
    Entries s x m where
  nodup := (hm.map _).nodup hl.nodup
  edge p hp := hl.edge p (hm.subset hp)
  position p hp := hl.position p (hm.subset hp)
  of p hp := hl.of p (hm.subset hp)

omit [DecidableEq Call] in
theorem entries_nil {x : EdgeState Call} : Entries s x [] := ⟨.nil, nofun, nofun, nofun⟩

/-- What a step makes of a successor list. -/
theorem successors_step (h : Inv cfg s) (hs : Step cfg a s s') (i : ℕ) :
    (s'.slots i).successors.entries = (s.slots i).successors.entries ∨
      (s'.slots i).successors.entries = [] ∨
      ∃ p, (s'.slots i).successors.entries = (s.slots i).successors.entries ++ [p] ∧
        s.edge p.2 = .unprocessed ∧ s'.edge p.2 = .listed i ∧
        p.2.position < (s.sub p.2.task).dependencies.length ∧ Of s p.1 p.2.task := by
  have hwrite : ∀ {j : ℕ} {x : Slot Call}, x.successors = (s.slots j).successors →
      (Function.update s.slots j x i).successors.entries = (s.slots i).successors.entries :=
    fun hx => proj_update (fun y : Slot Call => y.successors.entries) _ (by simp only [hx]) i
  have hclear : ∀ {j : ℕ} {x : Slot Call}, x.successors.entries = [] →
      (Function.update s.slots j x i).successors.entries = (s.slots i).successors.entries ∨
        (Function.update s.slots j x i).successors.entries = [] := by
    intro j x hx
    rcases eq_or_ne i j with rfl | hne
    · exact .inr (by rw [Function.update_self, hx])
    · exact .inl (by rw [Function.update_of_ne hne])
  cases hs
  case open_successors | take_successors | reset_successors =>
    refine (hclear ?_).imp_right .inl
    rfl
  case add t x k d l hpc hd hadd =>
    obtain ⟨_, hof, hlt, hedge⟩ := h.at_pc hpc
    rcases eq_or_ne i d.index with rfl | hne
    · have heq := Successors.tryAdd_eq (s.slots d.index).successors (s.slots d.index).generation
        d.generation (x, ⟨t, k⟩)
      rw [hadd] at heq
      refine .inr (.inr ⟨(x, ⟨t, k⟩), ?_, (hedge k hlt).mpr le_rfl, by simp, hlt, hof⟩)
      simpa [← heq.1] using heq.2
    · exact .inl (by simp [hne])
  all_goals first | exact .inl rfl | exact .inl (hwrite (by rfl))

theorem listed_step (h : Inv cfg s) (hs : Step cfg a s s') (i : ℕ) :
    Entries s' (.listed i) (s'.slots i).successors.entries := by
  have hkeep : (s'.slots i).successors.entries ≠ [] →
      Entries s' (.listed i) (s.slots i).successors.entries := by
    intro hne
    refine h.entries_keep hs (h.listed i) nofun fun p hp => ?_
    have hedge := (h.listed i).edge p hp
    cases h.edgeStep hs p.2 with
    | same heq => rw [heq, hedge]
    | list _ _ hun _ _ _ _ _ _ _ | settle _ hun _ _ _ => cases hun.symm.trans hedge
    | take j _ hj _ hnil _ _ =>
      cases hj.symm.trans hedge
      exact absurd hnil hne
    | subtract htaken _ _ => cases htaken.symm.trans hedge
  obtain heq | hnil | ⟨p, heq, hun, hnew, hpos, hof⟩ := h.successors_step hs i
  · rw [heq]
    rcases eq_or_ne (s.slots i).successors.entries [] with hnil | hne
    · rw [hnil]
      exact entries_nil
    · exact hkeep (by rwa [heq])
  · rw [hnil]
    exact entries_nil
  · have hold := hkeep (by simp [heq])
    rw [heq]
    refine ⟨?_, ?_, ?_, ?_⟩
    · rw [List.map_append, List.nodup_append]
      refine ⟨hold.nodup, by simp, fun e he e' he' hee => ?_⟩
      obtain ⟨q, hq, rfl⟩ := List.mem_map.mp he
      obtain rfl : e' = p.2 := by simpa using he'
      have hlisted := (h.listed i).edge q hq
      rw [hee, hun] at hlisted
      cases hlisted
    all_goals
      intro q hq
      obtain hq | hq := List.mem_append.mp hq
    · exact hold.edge q hq
    · obtain rfl := List.mem_singleton.mp hq
      exact hnew
    · exact hold.position q hq
    · obtain rfl := List.mem_singleton.mp hq
      have hlt : q.2.task < s.submitted := by
        by_contra hle
        obtain ⟨e, he, _⟩ := hof
        rw [(h.fresh _ (Nat.le_of_not_lt hle)).2.1] at he
        cases he
      rwa [h.dependencies_step hs hlt]
    · exact hold.of q hq
    · obtain rfl := List.mem_singleton.mp hq
      exact h.of_step hs hof

/-- What a step makes of the list its call goes through. -/
theorem entries_step (hs : Step cfg a s s') :
    (s'.pc a.call).entries.Sublist (s.pc a.call).entries ∨
      ∃ i, (s'.pc a.call).entries = (s.slots i).successors.entries ∧
        ∀ p ∈ (s.slots i).successors.entries, s'.edge p.2 = .taken a.call := by
  cases hs
  case take_successors x hpc =>
    exact .inr ⟨x.index, by simp [Pc.entries], fun p hp => if_pos (List.mem_map_of_mem hp)⟩
  case create hpc =>
    left
    simp only [State.issue, State.pcAt, Act.call, Function.update_self]
    split <;> simp [Pc.entries]
  case exhausted hpc =>
    left
    simp only [State.pcAt, Act.call, Function.update_self]
    unfold exhausted
    split
    · simp [Pc.entries]
    · split <;> simp [Pc.entries]
  case open_successors em _ => cases em <;> simp [Pc.entries]
  case answer o _ _ _ _ => cases o <;> simp [returned, Pc.entries]
  case destroy next hpc | reenter next hpc | bump next hpc | reset_successors next hpc |
      storeFree next hpc | list next hpc =>
    left
    cases next <;> simp [hpc, Pc.entries, Next.reentered, Next.pc]
  case complete hpc | looped hpc | drive hpc | pass hpc => exact .inl (by simp [hpc, Pc.entries])
  case dependent hpc _ | dependentStale hpc _ | subtract hpc _ | subtractLast hpc _ =>
    exact .inl (by simp [hpc, Pc.entries])
  all_goals exact .inl (by simp [Pc.entries])

theorem taken_step (h : Inv cfg s) (hs : Step cfg a s s') (c : Call) :
    Entries s' (.taken c) (s'.pc c).entries := by
  rcases eq_or_ne c a.call with rfl | hc
  · obtain hsub | ⟨i, heq, hedge⟩ := entries_step hs
    · refine h.entries_keep hs (entries_sublist (h.taken a.call) hsub) nofun fun p hp => ?_
      have hedge := (h.taken a.call).edge p (hsub.subset hp)
      cases h.edgeStep hs p.2 with
      | same heq => rw [heq, hedge]
      | list _ _ hun _ _ _ _ _ _ _ | settle _ hun _ _ _ => cases hun.symm.trans hedge
      | take j _ hj _ _ _ _ => cases hj.symm.trans hedge
      | subtract _ _ hgone => exact absurd (List.mem_map_of_mem hp) hgone
    · rw [heq]
      exact h.entries_keep hs (h.listed i) nofun hedge
  · rw [pc_other hs hc]
    refine h.entries_keep hs (h.taken c) nofun fun p hp => ?_
    have hedge := (h.taken c).edge p hp
    cases h.edgeStep hs p.2 with
    | same heq => rw [heq, hedge]
    | list _ _ hun _ _ _ _ _ _ _ | settle _ hun _ _ _ => cases hun.symm.trans hedge
    | take j _ hj _ _ _ _ => cases hj.symm.trans hedge
    | subtract htaken _ _ =>
      cases htaken.symm.trans hedge
      exact absurd rfl hc

/-! ### Waiting tasks -/

theorem early_step (h : Inv cfg s) (hs : Step cfg a s s') (t : ℕ) (ht : (s'.sub t).stage.Early)
    (k : ℕ) : s'.edge ⟨t, k⟩ = .unprocessed := by
  have hold : s.edge ⟨t, k⟩ = .unprocessed ∧ ∀ c, (s.sub t).stage ≠ .registering c := by
    obtain heq | hadv | ⟨rfl, _⟩ := h.advance hs t
    · rw [heq] at ht
      refine ⟨h.early t ht k, fun c hst => ?_⟩
      rw [hst] at ht
      exact ht
    · have hearly := hadv.early ht
      refine ⟨h.early t hearly k, fun c hst => ?_⟩
      rw [hst] at hearly
      exact hearly
    · refine ⟨(h.fresh _ le_rfl).2.2 k, fun c hst => ?_⟩
      rw [(h.fresh _ le_rfl).1] at hst
      cases hst
  cases h.edgeStep hs ⟨t, k⟩ with
  | same heq => rw [heq, hold.1]
  | list _ _ _ _ hst _ _ _ _ _ | settle _ _ _ hst _ => exact absurd hst (hold.2 _)
  | take _ _ hlisted _ _ _ _ => cases hlisted.symm.trans hold.1
  | subtract htaken _ _ => cases htaken.symm.trans hold.1

/-- A counter that is one when the guard is taken is the guard alone. -/
theorem guard_last (h : Inv cfg s) {x : TaskHandle} {t : ℕ} {c : Call}
    (hst : (s.sub t).stage = .registering c) (hx : Of s x t)
    (hone : (s.slots x.index).pending_dependencies = 1) : openEdges s t = 0 := by
  have hcount := h.counter hx (by rw [hst]; trivial)
  rw [hone, hst] at hcount
  have hle := openEdges_le s t
  have hlen := h.length t
  have hguard : Stage.guard (.registering c) = 1 := rfl
  rw [hguard] at hcount
  rcases Nat.lt_or_ge (1 + openEdges s t) word with hlt | hge
  · rw [Nat.mod_eq_of_lt hlt] at hcount
    omega
  · obtain heq : 1 + openEdges s t = word := by omega
    rw [heq, Nat.mod_self] at hcount
    omega

theorem openEdges_eq_zero {t : ℕ} : openEdges s t = 0 ↔
    ∀ k < (s.sub t).dependencies.length, s.edge ⟨t, k⟩ = .settled := by
  simp [openEdges, Nat.count_iff_forall_not]

/-- Of a single open edge, what is subtracted leaves none. -/
theorem openEdges_settle {t k : ℕ} (hk : k < (s.sub t).dependencies.length)
    (hopen : s.edge ⟨t, k⟩ ≠ .settled) (hsub : (s'.sub t).dependencies = (s.sub t).dependencies)
    (hedge : s'.edge = Function.update s.edge ⟨t, k⟩ .settled) :
    openEdges s t = openEdges s' t + 1 := by
  unfold openEdges
  rw [hsub, hedge]
  refine natCount_remove hk hopen (by simp) fun j hj => ?_
  rw [Function.update_of_ne (by simpa using hj)]

/-- A task stops waiting when all its edges are settled. -/
theorem stops (h : Inv cfg s) (hs : Step cfg a s s') {t : ℕ} (hw : (s.sub t).stage.Waits)
    (hstop : ¬(s'.sub t).stage.Waits) :
    (s'.sub t).stage = .driven a.call ∧ openEdges s' t = 0 := by
  have hne : s'.sub t ≠ s.sub t := by
    intro heq
    rw [heq] at hstop
    exact hstop hw
  have hdriven : (s'.sub t).stage = .driven a.call := by
    obtain heq | hadv | ⟨rfl, _⟩ := h.advance hs t
    · exact absurd heq hne
    · exact hadv.stops hw hstop
    · rw [(h.fresh _ le_rfl).1] at hw
      exact hw.elim
  refine ⟨hdriven, ?_⟩
  cases hs
  case unguardLast hpc hone =>
    obtain ⟨rfl, _⟩ := hit (by rfl) hne
    obtain ⟨hst, hof, _⟩ := h.at_pc hpc
    have hzero := h.guard_last hst hof hone
    rw [openEdges_eq_zero] at hzero ⊢
    intro k hk
    refine hzero k ?_
    simpa using hk
  case subtractLast e _ hpc hone =>
    obtain ⟨rfl, _⟩ := hit (by rfl) hne
    obtain ⟨hedge, hlt, _⟩ := h.subtracting hpc
    apply Nat.add_right_cancel
    exact (openEdges_settle hlt (by simp [hedge]) (by simp) (by rfl)).symm.trans (h.last hpc hone).2
  case publish hpc =>
    obtain ⟨rfl, _⟩ := hit (by rfl) hne
    obtain ⟨hst, _⟩ | hst := (h.at_pc hpc).1 <;> rw [hst] at hw <;> exact hw.elim
  case dequeue c x _ hx =>
    obtain ⟨u, _, _, heq⟩ := h.claim_eq c hx
    rw [(hit heq hne).2] at hdriven
    cases hdriven
  case bump next hpc =>
    cases next with
    | dependents u l =>
      rw [(hit (by rfl) hne).2] at hdriven
      cases hdriven
    | rethrow u => exact absurd rfl hne
  case complete hpc =>
    obtain ⟨rfl, _⟩ := hit (by rfl) hne
    rw [(h.at_pc hpc).1] at hw
    exact hw.elim
  case submit | submit_emplace | create | construct | constructThrows | constructInlineThrows |
      enqueue_ready | storePending | unguard | run_inline | inlineEnds | retire | call | ends | pass =>
    rw [(hit (by rfl) hne).2] at hdriven
    cases hdriven
  all_goals exact absurd rfl hne

theorem waits_step (h : Inv cfg s) (hs : Step cfg a s s') (e : Edge) (hun : s'.edge e ≠ .unprocessed)
    (hset : s'.edge e ≠ .settled) :
    (s'.sub e.task).stage.Waits ∧ e.position < (s'.sub e.task).dependencies.length := by
  have hopen : s.edge e ≠ .unprocessed → s.edge e ≠ .settled →
      (s'.sub e.task).stage.Waits ∧ e.position < (s'.sub e.task).dependencies.length := by
    intro hun' hset'
    obtain ⟨hw, hlt⟩ := h.waits e hun' hset'
    rw [← h.dependencies_step hs (h.edge_submitted hun')] at hlt
    refine ⟨?_, hlt⟩
    by_contra hstop
    exact hset (openEdges_eq_zero.mp (h.stops hs hw hstop).2 e.position hlt)
  cases h.edgeStep hs e with
  | same heq =>
    rw [heq] at hun hset
    exact hopen hun hset
  | list _ _ _ _ hst hd hsub _ _ _ =>
    rw [hsub, hst]
    exact ⟨trivial, (List.getElem?_eq_some_iff.mp hd).1⟩
  | take _ _ hlisted _ _ _ _ => exact hopen (by simp [hlisted]) (by simp [hlisted])
  | settle _ _ hnew _ _ | subtract _ hnew _ => exact absurd hnew hset

omit [DecidableEq Call] in
/-- A counter modulo `2^32`, less one. -/
theorem lowered_mod {n : ℕ} (hn : 0 < n) : lowered (n % word) = (n - 1) % word := by
  have hword : 0 < word := by decide
  obtain ⟨m, rfl⟩ : ∃ m, n = m + 1 := ⟨n - 1, by omega⟩
  unfold lowered
  rw [Nat.mod_add_mod, show m + 1 + (word - 1) = m + word by omega, Nat.add_mod_right]
  rfl

theorem openEdges_congr {t : ℕ} (hsub : (s'.sub t).dependencies = (s.sub t).dependencies)
    (hedge : s'.edge = s.edge) : openEdges s' t = openEdges s t := by
  unfold openEdges
  rw [hsub, hedge]

/-- A counter that did not change, of a task whose edges did not. -/
theorem pending_same (h : Inv cfg s) {i t : ℕ} (hi : (s.slots i).place = .held t)
    (hw : (s'.sub t).stage.Waits) (hsub : s'.sub t = s.sub t)
    (hpending : (s'.slots i).pending_dependencies = (s.slots i).pending_dependencies)
    (hedge : ∀ k, s'.edge ⟨t, k⟩ = .settled ↔ s.edge ⟨t, k⟩ = .settled) :
    (s'.slots i).pending_dependencies = ((s'.sub t).stage.guard + openEdges s' t) % word := by
  have hopen : openEdges s' t = openEdges s t := by
    unfold openEdges
    rw [hsub]
    exact natCount_congr fun k _ => not_congr (hedge k)
  rw [hpending, hopen, hsub]
  rw [hsub] at hw
  exact h.pending i t hi hw

/-- A counter that is lowered as an edge is settled. -/
theorem pending_lowered (h : Inv cfg s) {x : TaskHandle} {t k : ℕ} (hof : Of s x t)
    (hw : (s.sub t).stage.Waits) (hk : k < (s.sub t).dependencies.length)
    (hopen : s.edge ⟨t, k⟩ ≠ .settled) (hsub : s'.sub t = s.sub t)
    (hedge : s'.edge = Function.update s.edge ⟨t, k⟩ .settled)
    (hpending : (s'.slots x.index).pending_dependencies =
      lowered (s.slots x.index).pending_dependencies) :
    (s'.slots x.index).pending_dependencies = ((s'.sub t).stage.guard + openEdges s' t) % word := by
  rw [hpending, h.counter hof hw, lowered_mod (by
    rw [openEdges_settle hk hopen (by rw [hsub]) hedge]
    omega), hsub, openEdges_settle hk hopen (by rw [hsub]) hedge, ← Nat.add_assoc, Nat.add_sub_cancel]

theorem pending_step (h : Inv cfg s) (hs : Step cfg a s s') (i t : ℕ)
    (hi : (s'.slots i).place = .held t) (hw : (s'.sub t).stage.Waits) :
    (s'.slots i).pending_dependencies = ((s'.sub t).stage.guard + openEdges s' t) % word := by
  have hplace : (s.slots i).place = .held t := by
    rcases h.moved_step hs i with ⟨hplace, _⟩ | ⟨_, hplace, _⟩ | ⟨u, _, hplace, _, _, hst, _⟩ |
      ⟨u, _, hplace, _⟩ | ⟨_, hplace⟩
    · rw [← hplace, hi]
    · cases hi.symm.trans hplace
    · cases hi.symm.trans hplace
      rw [hst] at hw
      exact hw.elim
    · cases hi.symm.trans hplace
    · cases hi.symm.trans hplace
  -- The slot of another task is another slot.
  have hother : ∀ {u : ℕ} {x : TaskHandle}, Of s x u → (s.sub u).stage.Holding → t ≠ u →
      i ≠ x.index := by
    intro u x hof hst hne heq
    rw [heq, h.place hof hst] at hplace
    cases hplace
    exact hne rfl
  have hmine : ∀ {x : TaskHandle}, Of s x t → i = x.index := by
    intro x hof
    obtain ⟨e, he, _⟩ := hof
    rw [(h.held i t hplace).1] at he
    cases he
    rfl
  have hkeep : (s'.slots i).pending_dependencies = (s.slots i).pending_dependencies →
      (∀ k, s'.edge ⟨t, k⟩ = .settled ↔ s.edge ⟨t, k⟩ = .settled) →
      (s'.sub t ≠ s.sub t → ¬(s'.sub t).stage.Waits) →
      (s'.slots i).pending_dependencies = ((s'.sub t).stage.guard + openEdges s' t) % word := by
    intro hpending hedge hsub
    refine h.pending_same hplace hw ?_ hpending hedge
    by_contra hne
    exact hsub hne hw
  cases hs
  case storePending c u x hpc =>
    obtain ⟨hst, hof⟩ := h.at_pc hpc
    rcases eq_or_ne t u with rfl | hne
    · obtain rfl := hmine hof
      have hall : openEdges s t = (s.sub t).dependencies.length :=
        Nat.count_iff_forall.mpr fun k _ => by simp [h.early t (by rw [hst]; trivial) k]
      rw [openEdges_congr (s := s) (by simp) (by rfl), hall]
      simp [Stage.guard, Nat.add_comm]
    · have hslot := hother hof (by rw [hst]; trivial) hne
      exact hkeep (by simp [hslot]) (fun _ => Iff.rfl) (fun hsub => absurd (by simp [hne]) hsub)
  case settle c u x k hpc =>
    obtain ⟨hst, hof, hlt, hedge⟩ := h.at_pc hpc
    rcases eq_or_ne t u with rfl | hne
    · obtain rfl := hmine hof
      have hopen := (hedge k hlt).mpr le_rfl
      exact h.pending_lowered hof (by rw [hst]; trivial) hlt (by simp [hopen]) rfl rfl (by simp)
    · have hslot := hother hof (by rw [hst]; trivial) hne
      exact hkeep (by simp [hslot]) (fun _ => by simp [hne]) (fun hsub => absurd rfl hsub)
  case unguard c u x hpc hmore =>
    obtain ⟨hst, hof, _⟩ := h.at_pc hpc
    rcases eq_or_ne t u with rfl | hne
    · obtain rfl := hmine hof
      have hcount := h.counter hof (by rw [hst]; trivial)
      rw [hst, show Stage.guard (.registering c) = 1 from rfl] at hcount
      rw [openEdges_congr (s := s) (by simp) (by rfl)]
      simp only [State.pcAt, State.stageAt, State.subAt, State.slotAt, Function.update_self, hcount]
      rw [lowered_mod (by omega), Nat.add_sub_cancel_left]
      simp [Stage.guard]
    · have hslot := hother hof (by rw [hst]; trivial) hne
      exact hkeep (by simp [hslot]) (fun _ => Iff.rfl) (fun hsub => absurd (by simp [hne]) hsub)
  case unguardLast c u x hpc hone =>
    obtain ⟨hst, hof, _⟩ := h.at_pc hpc
    rcases eq_or_ne t u with rfl | hne
    · simp [Stage.Waits] at hw
    · have hslot := hother hof (by rw [hst]; trivial) hne
      exact hkeep (by simp [hslot]) (fun _ => Iff.rfl) (fun hsub => absurd (by simp [hne]) hsub)
  case subtract c u d e rest hpc hmore =>
    obtain ⟨hedge, hlt, hof, hwaits⟩ := h.subtracting hpc
    rcases eq_or_ne t e.task with rfl | hne
    · obtain rfl := hmine hof
      exact h.pending_lowered hof hwaits hlt (by simp [hedge]) rfl rfl (by simp)
    · have hslot := hother hof hwaits.holding hne
      refine hkeep (by simp [hslot]) (fun k => ?_) (fun hsub => absurd rfl hsub)
      simp [show (⟨t, k⟩ : Edge) ≠ e from fun heq => hne (by rw [← heq])]
  case subtractLast c u d e rest hpc hone =>
    obtain ⟨hedge, hlt, hof, hwaits⟩ := h.subtracting hpc
    rcases eq_or_ne t e.task with rfl | hne
    · simp [Stage.Waits] at hw
    · have hslot := hother hof hwaits.holding hne
      refine hkeep (by simp [hslot]) (fun k => ?_) (fun hsub => absurd (by simp [hne]) hsub)
      simp [show (⟨t, k⟩ : Edge) ≠ e from fun heq => hne (by rw [← heq])]
  case acquire j _ _ hfree =>
    refine hkeep ?_ (fun _ => Iff.rfl) (fun hsub => absurd rfl hsub)
    have hne : i ≠ j := by
      intro heq
      rw [heq, hfree] at hplace
      cases hplace
    simp [hne]
  case dequeue c x _ hx =>
    obtain ⟨u, _, _, heq⟩ := h.claim_eq c hx
    refine hkeep rfl (fun _ => Iff.rfl) fun hsub => ?_
    rw [(hit heq hsub).2]
    exact id
  case bump next hpc =>
    refine hkeep (proj_update Slot.pending_dependencies _ (by rfl) i) (fun _ => Iff.rfl) fun hsub => ?_
    cases next with
    | dependents u l =>
      rw [(hit (by rfl) hsub).2]
      exact id
    | rethrow u => exact absurd rfl hsub
  case complete hpc =>
    refine hkeep (proj_update Slot.pending_dependencies _ (by rfl) i) (fun _ => Iff.rfl) fun hsub => ?_
    rw [(hit (by rfl) hsub).2]
    show ¬(s.sub _).stage.Waits
    rw [(h.at_pc hpc).1]
    exact id
  case take_successors c u x hpc =>
    refine hkeep (proj_update Slot.pending_dependencies _ (by rfl) i) (fun k => ?_)
      (fun hsub => absurd rfl hsub)
    show (if (⟨t, k⟩ : Edge) ∈ _ then _ else _) = _ ↔ _
    split
    case isTrue hmem =>
      obtain ⟨p, hp, heq⟩ := List.mem_map.mp hmem
      have hedge := (h.listed x.index).edge p hp
      rw [heq] at hedge
      simp [hedge]
    case isFalse => exact Iff.rfl
  case add c u x k d l hpc hd hadd =>
    obtain ⟨_, _, hlt, hedge⟩ := h.at_pc hpc
    refine hkeep (proj_update Slot.pending_dependencies _ (by rfl) i) (fun j => ?_)
      (fun hsub => absurd rfl hsub)
    rcases eq_or_ne (⟨t, j⟩ : Edge) ⟨u, k⟩ with heq | hne
    · rw [heq]
      simp [(hedge k hlt).mpr le_rfl]
    · simp [hne]
  case submit | submit_emplace | constructThrows | constructInlineThrows | enqueue_ready | run_inline |
      inlineEnds | retire | call | ends | pass =>
    refine hkeep rfl (fun _ => Iff.rfl) fun hsub => ?_
    rw [(hit (by rfl) hsub).2]
    exact id
  case create | construct | publish =>
    refine hkeep (proj_update Slot.pending_dependencies _ (by rfl) i) (fun _ => Iff.rfl) fun hsub => ?_
    rw [(hit (by rfl) hsub).2]
    exact id
  all_goals
    first
    | exact hkeep rfl (fun _ => Iff.rfl) fun hsub => absurd rfl hsub
    | exact hkeep (proj_update Slot.pending_dependencies _ (by rfl) i) (fun _ => Iff.rfl)
        fun hsub => absurd rfl hsub

/-! ### All of it -/

theorem inv_initial : Inv cfg (initial : State Call) where
  ok _ := trivial
  fresh _ _ := ⟨rfl, rfl, fun _ => rfl⟩
  length _ := show 0 < word by decide
  generation _ := rfl
  hands _ _ := nofun
  held _ _ := nofun
  capacity _ := fun hne => absurd rfl hne
  issued _ _ _ := nofun
  function _ _ := nofun
  nodup := Multiset.nodup_zero
  ready _ := nofun
  logged _ ht := absurd ht (Nat.not_lt_zero _)
  outstanding := rfl
  listed _ := entries_nil
  taken _ := entries_nil
  early _ := nofun
  waits _ hun _ := absurd rfl hun
  pending _ _ := nofun

/-- A step keeps the invariant, if what it submits has a list of the right size. -/
theorem inv_step (h : Inv cfg s) (hs : Step cfg a s s') (hsized : a.Sized) : Inv cfg s' where
  ok := h.ok_step hs
  fresh := h.fresh_step hs
  length := h.length_step hs hsized
  generation := h.generation_step hs
  hands := h.hands_of_place hs
  held := h.held_step hs
  capacity := h.capacity_step hs
  issued := h.issued_field hs
  function := h.function_step hs
  nodup := h.nodup_step hs
  ready := h.ready_field hs
  logged := h.logged_step hs
  outstanding := h.outstanding_step hs
  listed := h.listed_step hs
  taken := h.taken_step hs
  early := h.early_step hs
  waits := h.waits_step hs
  pending := h.pending_step hs

theorem reachable (h : Reachable (sized Call cfg) s) : Inv cfg s := by
  induction h with
  | initial hs =>
    subst hs
    exact inv_initial
  | step _ hs ih => exact ih.inv_step hs.1 hs.2

end Inv

end Thunderbolt.Runtime.Lifecycle
