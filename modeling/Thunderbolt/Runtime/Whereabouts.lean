import Thunderbolt.Runtime.DependencyOrder

/-! Where an unfinished task is.

What `Ok` says, the other way round. A call that has a submission is at it (`Pc.Has`), the handle
of a queued task is on the ready queue, and a waiting task has an open edge, in the
successor list of a task that still has its slot or in the hands of the call that took that list. So
when no call is on its way, other than inside a body or between the polls of `wait`, each
task waits for one whose body has been started (`Found.started`). -/
namespace Thunderbolt.Runtime.Lifecycle
open Concurrent

variable {Call : Type} [DecidableEq Call] {cfg : PoolConfig} {a : Act Call} {s s' : State Call}
  {c : Call} {t u : ℕ} {x : TaskHandle}

/-- The call is at the submission `t`. -/
def Pc.Has (s : State Call) (t : ℕ) : Pc Call → Prop
  | idle => False
  | acquiring u _ | opening u _ _ | creating u _ | constructing u _ | publishing u _ | holding u _ |
    counting u _ | registering u _ _ | adding u _ _ | refused u _ _ | enqueueing u _ | awaiting u _ |
    inlining u | inlined u | retiring u => u = t
  | claimed x | exchanging x | calling x => Of s x t ∧ (s.sub t).stage.Holding
  | running u _ | taking u _ | completing u _ _ | releasing _ _ (.dependents u _) |
    releasing _ _ (.rethrow u) | looping u _ | subtracting u _ _ _ => u = t
  | driving u _ v _ | passing u _ v _ => u = t ∨ v = t
  | asking o _ _ | reading o _ _ | rechecking o _ _ _ | answered o _ _ _ => o.map Prod.fst = some t

omit [DecidableEq Call] in
theorem Pc.Has.frame {p : Pc Call} (h : p.Has s t) (hsub : s'.sub t = s.sub t) : p.Has s' t := by
  cases p with
  | claimed y | exchanging y | calling y =>
    refine ⟨Of.frame h.1 hsub, ?_⟩
    rw [hsub]
    exact h.2
  | releasing r i next => cases next <;> exact h
  | _ => exact h

omit [DecidableEq Call] in
/-- What a call has done with a submission, it has still, or nobody has. -/
theorem Advance.holder_after {y z : Submission Call} (h : Advance c y z) :
    z.stage.holder = none ∨ z.stage.holder = some c := by
  cases h
  case complete hst => exact .inr (congrArg Stage.holder hst)
  all_goals first | exact .inl rfl | exact .inr rfl

namespace Inv

/-- The call that takes the step is at what it has. -/
theorem has_own (h : Inv cfg s) (hs : Step cfg a s s')
    (hhas : ∀ t, (s.sub t).stage.holder = some a.call → (s.pc a.call).Has s t)
    (ht : (s'.sub t).stage.holder = some a.call) : (s'.pc a.call).Has s' t := by
  have hold : ∀ {p : Pc Call}, s.pc a.call = p → s'.sub t = s.sub t → p.Has s t := by
    intro p hp hsub
    rw [hsub] at ht
    exact hp ▸ hhas t ht
  have hnew : ∀ {p : Pc Call}, s'.pc a.call = p → p.Has s' t → (s'.pc a.call).Has s' t :=
    fun hp h => hp ▸ h
  have hsame : ∀ {v : ℕ} {y : Submission Call}, s'.sub = Function.update s.sub v y → t ≠ v →
      s'.sub t = s.sub t := by
    intro v y heq hne
    rw [heq, Function.update_of_ne hne]
  have hstays : ∀ {p q : Pc Call} {v : ℕ} {y : Submission Call}, s.pc a.call = p →
      s'.sub = Function.update s.sub v y → (∀ w, p.Has s w → w = v) → s'.pc a.call = q → q.Has s' v →
      (s'.pc a.call).Has s' t := by
    intro p q v y hp hsub honly hq hv
    refine hnew hq ?_
    rcases eq_or_ne t v with rfl | hne
    · exact hv
    · exact absurd (honly t (hold hp (hsame hsub hne))) hne
  have hgone : ∀ {p : Pc Call} {v : ℕ} {y : Submission Call}, s.pc a.call = p →
      s'.sub = Function.update s.sub v y → (∀ w, p.Has s w → w = v) → y.stage.holder ≠ some a.call → False := by
    intro p v y hp hsub honly hy
    rcases eq_or_ne t v with rfl | hne
    · rw [hsub, Function.update_self] at ht
      exact hy ht
    · exact hne (honly t (hold hp (hsame hsub hne)))
  cases hs
  case submit hpc | submit_emplace hpc =>
    refine hnew (Function.update_self ..) ?_
    by_contra hne
    exact hold hpc (hsame rfl (Ne.symm hne))
  case acquire hpc _ | constructInline hpc | storeWaiting hpc | awaited hpc | looped hpc | execute hpc _ |
      exchange hpc | take_successors hpc | subtract hpc _ | drive hpc | add hpc _ _ | settle hpc =>
    exact hnew (Function.update_self ..) (hold hpc rfl)
  case stale hpc _ _ | lookup hpc _ _ | refuse hpc _ _ | dependent hpc _ | dependentStale hpc _ |
      askStale hpc _ | askFound hpc _ | read hpc | recheckStale hpc _ | recheck hpc _ =>
    exact hnew (Function.update_self ..) (hold hpc rfl)
  case exhausted v em hpc =>
    refine hnew (Function.update_self ..) ?_
    have hv := hold hpc rfl
    unfold exhausted
    split
    · exact hv
    · split <;> exact hv
  case open_successors em hpc =>
    refine hnew (Function.update_self ..) ?_
    cases em <;> exact hold hpc rfl
  case await hpc _ => exact hnew (Function.update_self ..) (congrArg some (hold hpc rfl))
  case destroy next hpc | reenter next hpc | reset_successors next hpc | storeFree next hpc | list next hpc =>
    refine hnew (Function.update_self ..) ?_
    have hv := hold hpc rfl
    cases next <;> exact hv
  case answer o _ _ r hpc =>
    refine hnew (Function.update_self ..) ?_
    have hv := hold hpc rfl
    cases o with
    | none => cases hv
    | some q => exact Option.some.inj hv
  case create hpc =>
    refine hstays hpc rfl (fun _ hv => hv.symm) (Function.update_self ..) ?_
    split <;> rfl
  case construct hpc | constructThrows hpc | constructInlineThrows hpc | publish hpc | storePending hpc |
      run_inline hpc | inlineEnds hpc | ends hpc | complete hpc =>
    exact hstays hpc rfl (fun _ hv => hv.symm) (Function.update_self ..) rfl
  case unguardLast hpc _ => exact hstays hpc rfl (fun _ hv => hv.symm) (Function.update_self ..) rfl
  case enqueue_ready hpc | retire hpc => exact (hgone hpc rfl (fun _ hv => hv.symm) nofun).elim
  case unguard hpc _ => exact (hgone hpc rfl (fun _ hv => hv.symm) nofun).elim
  case dequeue c x hpc hx =>
    obtain ⟨v, hst, hof, heq⟩ := h.claim_eq c hx
    refine hstays hpc heq (fun _ hv => hv.elim) (Function.update_self ..) ⟨?_, ?_⟩
    · obtain ⟨e, he, hg⟩ := hof
      exact ⟨e, by simp [heq, he], hg⟩
    · simp [heq, Stage.Holding]
  case executeStale hpc hstale =>
    obtain ⟨hof, hst⟩ := hold hpc rfl
    exact absurd (h.resolves hof hst) hstale
  case call x v hpc hbody =>
    obtain ⟨hst, hof⟩ := h.body hpc hbody
    refine hstays hpc rfl (fun w hv => ?_) (Function.update_self ..) rfl
    exact h.of_unique hv.1 hof hv.2 (by rw [hst]; trivial)
  case bump next hpc =>
    refine hnew (Function.update_self ..) ?_
    cases next with
    | dependents v l =>
      rcases eq_or_ne t v with rfl | hne
      · rfl
      · exact hold hpc (hsame rfl hne)
    | rethrow v => exact hold hpc rfl
  case subtractLast e rest hpc _ =>
    refine hnew (Function.update_self ..) ?_
    rcases eq_or_ne t e.task with rfl | hne
    · exact .inr rfl
    · exact .inl (hold hpc (hsame rfl hne))
  case pass v _ w _ hpc =>
    refine hnew (Function.update_self ..) ?_
    rcases eq_or_ne t w with rfl | hne
    · simp [Stage.holder] at ht
    · exact (hold hpc (hsame rfl hne)).resolve_right hne.symm
  case ask hpc => exact (hold hpc rfl).elim

/-- The others are where they were. -/
theorem has_step (h : Inv cfg s) (hs : Step cfg a s s')
    (hhas : ∀ t c, (s.sub t).stage.holder = some c → (s.pc c).Has s t) (t : ℕ) (c : Call)
    (ht : (s'.sub t).stage.holder = some c) : (s'.pc c).Has s' t := by
  rcases eq_or_ne c a.call with rfl | hc
  · exact h.has_own hs (fun t => hhas t a.call) ht
  · have hsub : s'.sub t = s.sub t := by
      obtain heq | hadv | ⟨_, _, deps, _, heq⟩ := h.advance hs t
      · exact heq
      · obtain hnone | hsome := hadv.holder_after
        · cases ht.symm.trans hnone
        · exact absurd (Option.some.inj (ht.symm.trans hsome)) hc
      · rw [heq] at ht
        exact absurd (Option.some.inj ht).symm hc
    rw [hsub] at ht
    rw [pc_other hs hc]
    exact (hhas t c ht).frame hsub

/-- A task that is queued is on the ready queue. -/
theorem queued_found (h : Inv cfg s) (hs : Step cfg a s s')
    (hqueued : ∀ t, (s.sub t).stage = .queued → ∃ x ∈ s.ready, Of s x t) (t : ℕ)
    (ht : (s'.sub t).stage = .queued) : ∃ x ∈ s'.ready, Of s' x t := by
  have hkeep : (s.sub t).stage = .queued → (∀ x, Of s x t → x ∈ s.ready → x ∈ s'.ready) →
      ∃ x ∈ s'.ready, Of s' x t := by
    intro hst hsub
    obtain ⟨x, hx, hof⟩ := hqueued t hst
    exact ⟨x, hsub x hof hx, h.of_step hs hof⟩
  have hold : s'.sub t = s.sub t → (∀ x, Of s x t → x ∈ s.ready → x ∈ s'.ready) →
      ∃ x ∈ s'.ready, Of s' x t := fun heq => hkeep (heq ▸ ht)
  cases id hs
  case dequeue c y _ hy =>
    obtain ⟨v, hst, hof, heq⟩ := h.claim_eq c hy
    have hne : t ≠ v := by
      intro heq
      obtain rfl := heq
      simp [heq] at ht
    have hsame : s.claim c y t = s.sub t := by rw [heq, Function.update_of_ne hne]
    have hqueued : (s.sub t).stage = .queued := hsame ▸ ht
    refine hold hsame fun x hx hmem => (Multiset.mem_erase_of_ne ?_).mpr hmem
    intro heq
    obtain rfl := heq
    exact hne (h.of_unique hx hof (by rw [hqueued]; trivial) (by rw [hst]; trivial))
  case enqueue_ready c v y hpc =>
    rcases eq_or_ne t v with rfl | hne
    · exact ⟨y, Multiset.mem_cons_self _ _, h.of_step hs (h.at_pc hpc).2⟩
    · exact hold (Function.update_of_ne hne _ _) fun _ _ hx => Multiset.mem_cons_of_mem hx
  case pass c _ y v _ hpc =>
    rcases eq_or_ne t v with rfl | hne
    · exact ⟨y, Multiset.mem_cons_self _ _, h.of_step hs (h.at_pc hpc).2.2⟩
    · exact hold (Function.update_of_ne hne _ _) fun _ _ hx => Multiset.mem_cons_of_mem hx
  case complete hpc =>
    exact hkeep ((proj_update Submission.stage _ (by rfl) t).symm.trans ht) fun _ _ hx => hx
  case bump next _ =>
    refine hold ?_ fun _ _ hx => hx
    by_contra hne
    cases next with
    | dependents v l =>
      rw [(hit (by rfl) hne).2] at ht
      cases ht
    | rethrow v => exact hne rfl
  case submit | submit_emplace | create | construct | constructThrows | constructInlineThrows | publish |
      storePending | unguardLast | unguard | run_inline | inlineEnds | retire | call | ends | subtractLast =>
    refine hold ?_ fun _ _ hx => hx
    by_contra hne
    rw [(hit (by rfl) hne).2] at ht
    cases ht
  all_goals exact hold rfl fun _ _ hx => hx

/-- Who has got anywhere has been submitted. -/
theorem submitted_of (h : Inv cfg s) {st : Stage Call} (hst : (s.sub t).stage = st) (hne : st ≠ .retired) :
    t < s.submitted := by
  by_contra hle
  exact hne (hst.symm.trans (h.fresh t (Nat.le_of_not_lt hle)).1)

/-- An edge is processed once. -/
theorem processed_step (h : Inv cfg s) (hs : Step cfg a s s') {e : Edge} (he : s.edge e ≠ .unprocessed) :
    s'.edge e ≠ .unprocessed := by
  intro hnew
  cases h.edgeStep hs e with
  | same heq => exact he (heq ▸ hnew)
  | list _ _ _ hlisted _ _ _ _ _ _ => cases hnew.symm.trans hlisted
  | take _ _ _ htaken _ _ _ => cases hnew.symm.trans htaken
  | settle _ _ hsettled _ _ | subtract _ hsettled _ => cases hnew.symm.trans hsettled

/-- When the last open edge of a waiting task is settled, the task waits no longer. -/
theorem last_settled (h : Inv cfg s) (hs : Step cfg a s s') (hst : (s.sub t).stage = .waiting)
    (ht : (s'.sub t).stage = .waiting) (hopen : openEdges s t ≠ 0) (hzero : openEdges s' t = 0) : False := by
  have hdeps := h.dependencies_step hs (h.submitted_of hst nofun)
  obtain ⟨k, hk, hk'⟩ : ∃ k < (s.sub t).dependencies.length, s.edge ⟨t, k⟩ ≠ .settled := by
    by_contra hall
    push Not at hall
    exact hopen (openEdges_eq_zero.mpr hall)
  have hsettled := openEdges_eq_zero.mp hzero k (hdeps ▸ hk)
  have htaken : s.edge ⟨t, k⟩ = .taken a.call := by
    cases h.edgeStep hs ⟨t, k⟩ with
    | same heq => exact absurd (heq ▸ hsettled) hk'
    | list _ _ _ hlisted _ _ _ _ _ _ => cases hsettled.symm.trans hlisted
    | take _ _ _ htaken _ _ _ => cases hsettled.symm.trans htaken
    | settle _ _ _ hreg _ => cases hst.symm.trans hreg
    | subtract htaken _ _ => exact htaken
  -- The step is the one that subtracts this edge.
  have hself : ∀ {e : Edge} {y : EdgeState Call}, Function.update s.edge e y ⟨t, k⟩ = .settled → e = ⟨t, k⟩ := by
    intro e y heq
    by_contra hne
    exact hk' ((Function.update_of_ne (Ne.symm hne) _ _).symm.trans heq)
  cases id hs
  case subtract hpc hmore =>
    obtain rfl := hself hsettled
    obtain ⟨_, _, hof, hwaits⟩ := h.subtracting hpc
    have hone : openEdges s t = 0 + 1 := by
      rw [← hzero]
      exact openEdges_settle hk hk' (by rfl) (by rfl)
    have hcount := h.counter hof hwaits
    rw [hone, hst] at hcount
    exact hmore hcount
  case subtractLast =>
    obtain rfl := hself hsettled
    simp at ht
  case settle hpc =>
    cases hself hsettled
    cases hst.symm.trans (h.at_pc hpc).1
  case add =>
    cases hself hsettled
    simp at hsettled
  case take_successors c _ x _ =>
    have hsettled : (if ⟨t, k⟩ ∈ (s.slots x.index).successors.entries.map Prod.snd then EdgeState.taken c
      else s.edge ⟨t, k⟩) = .settled := hsettled
    split at hsettled
    · cases hsettled
    · exact hk' hsettled
  all_goals exact hk' hsettled

/-- A task that waits has all its edges registered, and one of them open. -/
theorem waiting_found (h : Inv cfg s) (hs : Step cfg a s s')
    (hwaiting : ∀ t, (s.sub t).stage = .waiting →
      (∀ k < (s.sub t).dependencies.length, s.edge ⟨t, k⟩ ≠ .unprocessed) ∧ openEdges s t ≠ 0) (t : ℕ)
    (ht : (s'.sub t).stage = .waiting) :
    (∀ k < (s'.sub t).dependencies.length, s'.edge ⟨t, k⟩ ≠ .unprocessed) ∧ openEdges s' t ≠ 0 := by
  have hstays : (s.sub t).stage = .waiting →
      (∀ k < (s'.sub t).dependencies.length, s'.edge ⟨t, k⟩ ≠ .unprocessed) ∧ openEdges s' t ≠ 0 := by
    intro hst
    obtain ⟨hprocessed, hopen⟩ := hwaiting t hst
    refine ⟨fun k hk => ?_, fun hzero => ?_⟩
    · rw [h.dependencies_step hs (h.submitted_of hst nofun)] at hk
      exact h.processed_step hs (hprocessed k hk)
    · exact h.last_settled hs hst ht hopen hzero
  by_cases hne : s'.sub t = s.sub t
  · exact hstays (hne ▸ ht)
  cases id hs
  case unguard c x hpc hmore =>
    obtain ⟨rfl, _⟩ := hit (by rfl) hne
    obtain ⟨hst, hof, _, hedge⟩ := h.at_pc hpc
    have hdeps := h.dependencies_step hs (h.submitted_of hst nofun)
    refine ⟨fun k hk => ?_, fun hzero => ?_⟩
    · rw [hdeps] at hk
      exact mt (hedge k hk).mp (by omega)
    · have hcount := h.counter hof (by rw [hst]; trivial)
      rw [openEdges_congr (s := s) hdeps (by rfl)] at hzero
      rw [hst, hzero] at hcount
      exact hmore hcount
  case complete => exact hstays ((proj_update Submission.stage _ (by rfl) t).symm.trans ht)
  case dequeue c y _ hy =>
    obtain ⟨_, _, _, heq⟩ := h.claim_eq c hy
    rw [(hit heq hne).2] at ht
    cases ht
  case bump next _ =>
    cases next with
    | dependents v l =>
      rw [(hit (by rfl) hne).2] at ht
      cases ht
    | rethrow v => exact absurd rfl hne
  case submit | submit_emplace | create | construct | constructThrows | constructInlineThrows | publish |
      enqueue_ready | storePending | unguardLast | run_inline | inlineEnds | retire | call | ends |
      subtractLast | pass =>
    rw [(hit (by rfl) hne).2] at ht
    cases ht
  all_goals exact absurd rfl hne

/-- A handle is looked up before it is registered with. -/
theorem adding_step (h : Inv cfg s) (hs : Step cfg a s s')
    (hadding : ∀ c t y k d, s.pc c = .adding t y k → (s.sub t).dependencies[k]? = some d → d.valid = true)
    (c : Call) (t : ℕ) (y : TaskHandle) (k : ℕ) (d : TaskHandle) (hpc : s'.pc c = .adding t y k)
    (hd : (s'.sub t).dependencies[k]? = some d) : d.valid = true := by
  rcases eq_or_ne c a.call with rfl | hc
  · cases hs <;> simp only [State.pcAt, State.issue, Act.call, Function.update_self] at hpc
    case lookup hd' hfound =>
      cases hpc
      cases hd.symm.trans hd'
      exact hfound.1
    case create => split at hpc <;> cases hpc
    case exhausted =>
      unfold exhausted at hpc
      split at hpc
      · cases hpc
      · split at hpc <;> cases hpc
    case open_successors => split at hpc <;> cases hpc
    case list next _ => cases next <;> cases hpc
    case answer o _ _ _ _ => cases o <;> cases hpc
    all_goals cases hpc
  · rw [pc_other hs hc] at hpc
    rw [h.dependencies_step hs (h.submitted_of (h.at_pc hpc).1 nofun)] at hd
    exact hadding c t y k d hpc hd

/-- Who registers an edge is about to add it. -/
theorem listed_inv (hs : Step cfg a s s') {e : Edge} {i : ℕ} (he : s'.edge e = .listed i) :
    s.edge e = .listed i ∨ ∃ y, s.pc a.call = .adding e.task y e.position := by
  by_cases hold : s'.edge e = s.edge e
  · exact .inl (hold ▸ he)
  have hself : ∀ {e' : Edge} {y : EdgeState Call}, Function.update s.edge e' y e ≠ s.edge e → e = e' := by
    intro e' y hne
    by_contra heq
    exact hne (Function.update_of_ne heq _ _)
  cases hs
  case add y k d l hpc _ _ =>
    obtain rfl := hself hold
    exact .inr ⟨y, hpc⟩
  case settle | subtract | subtractLast =>
    obtain rfl := hself hold
    simp at he
  case take_successors c _ y _ =>
    have he : (if e ∈ (s.slots y.index).successors.entries.map Prod.snd then EdgeState.taken c
      else s.edge e) = .listed i := he
    split at he
    · cases he
    · exact .inl he
  all_goals exact absurd rfl hold

/-- A valid handle is registered with. -/
theorem listed_valid (h : Inv cfg s) (hs : Step cfg a s s')
    (hadding : ∀ c t y k d, s.pc c = .adding t y k → (s.sub t).dependencies[k]? = some d → d.valid = true)
    (hlisted : ∀ t k i d, s.edge ⟨t, k⟩ = .listed i → (s.sub t).dependencies[k]? = some d → d.valid = true)
    (t k i : ℕ) (d : TaskHandle) (he : s'.edge ⟨t, k⟩ = .listed i)
    (hd : (s'.sub t).dependencies[k]? = some d) : d.valid = true := by
  obtain hold | ⟨y, hpc⟩ := listed_inv hs he
  · have ht : t < s.submitted := h.edge_submitted (by rw [hold]; exact nofun)
    rw [h.dependencies_step hs ht] at hd
    exact hlisted t k i d hold hd
  · rw [h.dependencies_step hs (h.submitted_of (h.at_pc hpc).1 nofun)] at hd
    exact hadding _ t y k d hpc hd

end Inv

/-! ### Runs in which no handle comes round -/

/-- Its dependencies still matter. -/
def Stage.Depends : Stage Call → Prop
  | entering _ | created _ | registering _ | waiting => True
  | _ => False

omit [DecidableEq Call] in
theorem Advance.depends {y z : Submission Call} (h : Advance c y z) (hz : z.stage.Depends) :
    y.stage.Depends ∧ z.dependencies = y.dependencies := by
  refine ⟨?_, h.dependencies⟩
  cases h
  case complete => exact hz
  case issue hst | register hst | unguard hst =>
    rw [hst]
    trivial
  all_goals exact hz.elim

/-- The slot of the handle has been released fewer than `2^32 - 1` times since the handle was issued, or the
handle is of no task. -/
def Recent (s : State Call) (x : TaskHandle) : Prop :=
  x.valid = false ∨ ∃ t e, IssuedAt s x t e ∧ (s.slots x.index).releases + 1 < e + word

/-- Fewer than `2^32` times. -/
def Current (s : State Call) (x : TaskHandle) : Prop :=
  x.valid = false ∨ ∃ t e, IssuedAt s x t e ∧ (s.slots x.index).releases < e + word

/-- The handles that tasks depend on are recent. -/
def Fresh (s : State Call) : Prop :=
  ∀ t, (s.sub t).stage.Depends → ∀ d ∈ (s.sub t).dependencies, Recent s d

/-- Nothing is counted beyond 32 bits, and destroying a body runs no other. -/
def Act.Regular (a : Act Call) (s : State Call) : Prop :=
  a.Sized ∧ (∀ c, a ≠ .reenter c) ∧ Fresh s ∧ ∀ c deps, a = .submit c deps → ∀ d ∈ deps, Recent s d

abbrev regular (Call : Type) [DecidableEq Call] (cfg : PoolConfig) : System (State Call) (Act Call) :=
  (system Call cfg).restrict Act.Regular

/-- `x` is the handle of `u`, which has its slot. -/
def Holds (s : State Call) (x : TaskHandle) (u : ℕ) : Prop :=
  (s.slots x.index).place = .held u ∧ (s.slots x.index).generation = x.generation

namespace Holds

theorem submitted (hu : Holds s x u) (h : Inv cfg s) : u < s.submitted := by
  have hst := (h.held x.index u hu.1).2
  refine h.submitted_of rfl ?_
  intro heq
  rw [heq] at hst
  exact hst

theorem valid (hu : Holds s x u) (h : Inv cfg s) : x.valid = true := by
  have hlt := h.capacity x.index (by rw [hu.1]; exact nofun)
  have hfits := cfg.fits
  simp only [TaskHandle.valid, bne_iff_ne]
  omega

/-- A handle issued lately is of the task it was issued for. -/
theorem issued {e : ℕ} (hu : Holds s x u) (h : Inv cfg s) (hx : IssuedAt s x t e)
    (hwin : (s.slots x.index).releases < e + word) : u = t ∧ e = (s.slots x.index).releases := by
  have heq := (hx.generation h hwin).mp hu.2
  obtain ⟨_, hplace, _⟩ | ⟨_, hlt⟩ := h.issued t x.index e hx.1
  · cases hplace.symm.trans hu.1
    exact ⟨rfl, heq.symm⟩
  · omega

end Holds

namespace Recent

/-- A handle that is recent, and has not been issued twice, is recent because of its only issue. -/
theorem window {e : ℕ} (hrecent : Recent s x) (h : Inv cfg s) (hvalid : x.valid = true) (hx : IssuedAt s x t e)
    (hwin : (s.slots x.index).releases < e + word) : (s.slots x.index).releases + 1 < e + word := by
  obtain hinvalid | ⟨v, e', hx', hwin'⟩ := hrecent
  · cases hvalid.symm.trans hinvalid
  have hle := hx.le h
  have hle' := hx'.le h
  have hgen : e % word = e' % word := hx.2.symm.trans hx'.2
  have hdiv := Nat.div_add_mod e word
  have hdiv' := Nat.div_add_mod e' word
  rcases lt_trichotomy (e / word) (e' / word) with hlt | heq | hlt
  · have := Nat.mul_le_mul_left word hlt
    rw [Nat.mul_succ] at this
    omega
  · rw [heq] at hdiv
    omega
  · have := Nat.mul_le_mul_left word hlt
    rw [Nat.mul_succ] at this
    omega

/-- A handle that was issued lately is not issued again. -/
theorem holds_back (hx : Recent s x) (h : Inv cfg s) (h' : Inv cfg s') (hs : Step cfg a s s')
    (hu : Holds s' x u) : Holds s x u := by
  obtain hinvalid | ⟨t, e, hx, hwin⟩ := hx
  · cases hinvalid.symm.trans (hu.valid h')
  have hle := hx.le h
  have hreleases : (s'.slots x.index).releases ≤ (s.slots x.index).releases + 1 := by
    obtain ⟨_, heq⟩ | ⟨_, _, heq⟩ := Inv.releases_step hs x.index <;> omega
  have hmono := Inv.releases_le hs x.index
  obtain ⟨rfl, he⟩ := hu.issued h' (hx.step h hs) (by omega)
  refine ⟨?_, ?_⟩
  · obtain ⟨_, hplace, _⟩ | ⟨_, hlt⟩ := h.issued u x.index e hx.1
    · exact hplace
    · omega
  · rw [h.generation, hx.2]
    congr 1
    omega

end Recent

/-- Where tasks, edges and handles are to be found. -/
structure Found (s : State Call) : Prop where
  has : ∀ t c, (s.sub t).stage.holder = some c → (s.pc c).Has s t
  queued : ∀ t, (s.sub t).stage = .queued → ∃ x ∈ s.ready, Of s x t
  waiting : ∀ t, (s.sub t).stage = .waiting →
    (∀ k < (s.sub t).dependencies.length, s.edge ⟨t, k⟩ ≠ .unprocessed) ∧ openEdges s t ≠ 0
  taken : ∀ c e, s.edge e = .taken c → e ∈ (s.pc c).entries.map Prod.snd
  adding : ∀ c t y k d, s.pc c = .adding t y k → (s.sub t).dependencies[k]? = some d → d.valid = true
  listed : ∀ t k i d, s.edge ⟨t, k⟩ = .listed i → (s.sub t).dependencies[k]? = some d → d.valid = true
  behind : ∀ t, (s.sub t).stage.Depends → ∀ k d, (s.sub t).dependencies[k]? = some d →
    d.valid = false ∨ ∃ u < t, ∃ e, Ordered s t k d u e ∧ (s.slots d.index).releases < e + word

namespace Found

theorem initial : Found (initial : State Call) where
  has _ _ := nofun
  queued _ := nofun
  waiting _ := nofun
  taken _ _ := nofun
  adding _ _ _ _ _ := nofun
  listed _ _ _ _ := nofun
  behind _ := nofun

/-- What a submission begins with. -/
theorem entering_new (hs : Step cfg a s s') (hnew : s'.submitted ≠ s.submitted) :
    s'.submitted = s.submitted + 1 ∧ ∃ deps em, a = .submit a.call deps ∧
      s'.sub s.submitted = .enter a.call deps ∧ s'.pc a.call = .acquiring s.submitted em := by
  cases hs
  case submit | submit_emplace =>
    exact ⟨rfl, _, _, rfl, Function.update_self .., Function.update_self ..⟩
  all_goals exact absurd rfl hnew

/-- A submission that depends on others did so before, or is new. -/
theorem depends_step (h : Inv cfg s) (hs : Step cfg a s s') (ht : (s'.sub t).stage.Depends) :
    ((s.sub t).stage.Depends ∧ (s'.sub t).dependencies = (s.sub t).dependencies) ∨
      ∃ deps em, a = .submit a.call deps ∧ t = s.submitted ∧ (s'.sub t).dependencies = deps ∧
        s'.pc a.call = .acquiring t em := by
  obtain heq | hadv | ⟨rfl, hnew, _⟩ := h.advance hs t
  · rw [heq] at ht ⊢
    exact .inl ⟨ht, rfl⟩
  · exact .inl (hadv.depends ht)
  · obtain ⟨_, deps, em, ha, heq, hpc⟩ := entering_new hs (by omega)
    exact .inr ⟨deps, em, ha, rfl, by rw [heq]; rfl, hpc⟩

/-- A submission is behind those before it. -/
theorem behind_step (f : Found s) (h : Inv cfg s) (h' : Inv cfg s') (r : Recorded cfg s) (z : Closed s)
    (hs : Step cfg a s s') (hregular : a.Regular s) (t : ℕ) (ht : (s'.sub t).stage.Depends) (k : ℕ)
    (d : TaskHandle) (hd : (s'.sub t).dependencies[k]? = some d) :
    d.valid = false ∨ ∃ u < t, ∃ e, Ordered s' t k d u e ∧ (s'.slots d.index).releases < e + word := by
  have hreleases : (s'.slots d.index).releases ≤ (s.slots d.index).releases + 1 := by
    obtain ⟨_, heq⟩ | ⟨_, _, heq⟩ := Inv.releases_step hs d.index <;> omega
  obtain ⟨hst, hdeps⟩ | ⟨deps, em, ha, rfl, hdeps, hpc⟩ := depends_step h hs ht
  · rw [hdeps] at hd
    obtain hinvalid | ⟨u, hlt, e, o, hwin⟩ := f.behind t hst k d hd
    · exact .inl hinvalid
    cases hvalid : d.valid with
    | false => exact .inl rfl
    | true =>
    have hwin' := (hregular.2.2.1 t hst d (List.mem_of_getElem? hd)).window h hvalid o.issued hwin
    have ht : t < s.submitted := by
      refine h.submitted_of rfl ?_
      intro heq
      rw [heq] at hst
      exact hst
    exact .inr ⟨u, hlt, e, o.step h r z hs ht hwin, by omega⟩
  · obtain hinvalid | ⟨u, e, hx, hwin⟩ := hregular.2.2.2 _ deps ha d (List.mem_of_getElem? (hdeps ▸ hd))
    · exact .inl hinvalid
    · exact .inr ⟨u, h.issued_submitted hx, e, .of_acquiring h' hpc hd (hx.step h hs), by omega⟩

theorem step (f : Found s) (h : Inv cfg s) (h' : Inv cfg s') (r : Recorded cfg s) (z : Closed s)
    (hs : Step cfg a s s') (hregular : a.Regular s) : Found s' where
  has := h.has_step hs f.has
  queued := h.queued_found hs f.queued
  waiting := h.waiting_found hs f.waiting
  taken := h.taken_carried hs hregular.2.1 f.taken
  adding := h.adding_step hs f.adding
  listed := h.listed_valid hs f.adding f.listed
  behind := f.behind_step h h' r z hs hregular

theorem reachable (h : Reachable (regular Call cfg) s) : Found s := by
  induction h with
  | initial hs =>
    subst hs
    exact initial
  | step h hs ih =>
    have hsized : Reachable (sized Call cfg) _ := h.restrict_mono fun _ _ hregular => hregular.1
    exact ih.step (.reachable hsized) (.reachable (hsized.step ⟨hs.1, hs.2.1⟩)) (.reachable hsized)
      (.reachable hsized) hs.1 hs.2

end Found

theorem Found.current (f : Found s) (ht : (s.sub t).stage.Depends) (hx : x ∈ (s.sub t).dependencies) :
    Current s x := by
  obtain ⟨k, hk⟩ := List.getElem?_of_mem hx
  obtain hinvalid | ⟨u, _, e, o, hwin⟩ := f.behind t ht k x hk
  · exact .inl hinvalid
  · exact .inr ⟨u, e, o.issued, hwin⟩

/-! ### When nothing is on its way -/

/-- The call is idle, inside a body, or between the reads of a query. -/
def Pc.Quiet : Pc Call → Prop
  | idle | inlined _ | running _ _ | awaiting _ _ | asking _ _ _ | reading _ _ _ | rechecking _ _ _ _ |
    answered _ _ _ _ => True
  | _ => False

/-- The body has been called, and has not ended. -/
def Started (s : State Call) (t : ℕ) : Prop := ∃ c, (s.sub t).stage = .running c

theorem Started.submitted (ht : Started s t) (h : Inv cfg s) : t < s.submitted := by
  obtain ⟨c, ht⟩ := ht
  exact h.submitted_of ht nofun

theorem Started.invoked (ht : Started s t) (h : Inv cfg s) : (s.sub t).invoked ≠ 0 := by
  have hlog := h.logged t (ht.submitted h)
  obtain ⟨c, ht⟩ := ht
  unfold Logged at hlog
  rw [ht] at hlog
  exact ne_of_eq_of_ne hlog Nat.one_ne_zero

/-- `t` is to start after `u`, which has not been completed. -/
def Needs (s : State Call) (t u : ℕ) : Prop :=
  (s.sub t).stage.Depends ∧ ∃ d ∈ (s.sub t).dependencies, Holds s d u

/-- A task that was submitted does not come to depend on another. -/
theorem Needs.back (hfresh : Fresh s) (h : Inv cfg s) (h' : Inv cfg s') (hs : Step cfg a s s')
    (ht : t < s.submitted) (hneeds : Relation.ReflTransGen (Needs s') t u) :
    Relation.ReflTransGen (Needs s) t u := by
  induction hneeds using Relation.ReflTransGen.head_induction_on with
  | refl => exact .refl
  | head hedge _ ih =>
    obtain ⟨hdepends, d, hd, hholds⟩ := hedge
    obtain ⟨hst, hdeps⟩ | ⟨_, _, _, rfl, _⟩ := Found.depends_step h hs hdepends
    · rw [hdeps] at hd
      have hholds := (hfresh _ hst d hd).holds_back h h' hs hholds
      exact .head ⟨hst, d, hd, hholds⟩ (ih (hholds.submitted h))
    · exact absurd ht (Nat.lt_irrefl _)

/-- `is_complete_internal` says no, if nothing changes meanwhile. -/
def Pending (cfg : PoolConfig) (s : State Call) (x : TaskHandle) : Prop :=
  s.Resolves cfg x ∧ (s.slots x.index).state ≠ .Completed

namespace Found
variable (f : Found s) (h : Inv cfg s)
include f h

/-- Who has a submission, when nothing is on its way, is inside its body or about to wait for it. -/
theorem holder_of_quiet (hquiet : ∀ c, (s.pc c).Quiet) (hc : (s.sub t).stage.holder = some c) :
    (s.sub t).stage = .running c ∧ ((∃ x, s.pc c = .running t x) ∨ s.pc c = .inlined t) ∨
      (s.sub t).stage = .entering c ∧ ∃ k, (s.pc c).awaits = some (t, k) := by
  have hhas := f.has t c hc
  have hq := hquiet c
  cases hp : s.pc c with
  | running v y =>
    rw [hp] at hhas
    obtain rfl : v = t := hhas
    exact .inl ⟨(h.at_pc hp).1, .inl ⟨y, rfl⟩⟩
  | inlined v =>
    rw [hp] at hhas
    obtain rfl : v = t := hhas
    exact .inl ⟨(h.at_pc hp).1, .inr rfl⟩
  | awaiting v k =>
    rw [hp] at hhas
    obtain rfl : v = t := hhas
    exact .inr ⟨h.at_pc hp, k, rfl⟩
  | asking o _ _ | reading o _ _ | rechecking o _ _ _ | answered o _ _ _ =>
    rw [hp] at hhas
    have hok := h.at_pc hp
    cases o with
    | none => cases hhas
    | some q =>
      obtain rfl : q.1 = t := Option.some.inj hhas
      exact .inr ⟨hok, q.2, rfl⟩
  | _ =>
    rw [hp] at hq hhas
    first | exact hq.elim | exact hhas.elim

/-- **When nothing is on its way, a task that has its slot waits for one that has been started**, if
it has not been started itself. -/
theorem started (hquiet : ∀ c, (s.pc c).Quiet) (hready : s.ready = 0) (ht : (s.sub t).stage.Holding) :
    ∃ u, Relation.ReflTransGen (Needs s) t u ∧ Started s u := by
  have hholder : ∀ {v c st}, (s.sub v).stage = st → st.holder = some c → st = .running c ∨ st = .entering c :=
    fun hst hc => hst ▸ (f.holder_of_quiet h hquiet (hst ▸ hc)).imp And.left And.left
  induction t using Nat.strong_induction_on with
  | _ t ih =>
    cases hst : (s.sub t).stage with
    | running c => exact ⟨t, .refl, c, hst⟩
    | queued =>
      obtain ⟨x, hx, _⟩ := f.queued t hst
      rw [hready] at hx
      cases hx
    | entering c | left c | thrown c | retired =>
      rw [hst] at ht
      exact ht.elim
    | created c | registering c | driven c | claimed c | ended c =>
      obtain hst | hst := hholder hst rfl <;> cases hst
    | waiting =>
      obtain ⟨hprocessed, hopen⟩ := f.waiting t hst
      obtain ⟨k, hk, hopen⟩ : ∃ k < (s.sub t).dependencies.length, s.edge ⟨t, k⟩ ≠ .settled := by
        by_contra hall
        push Not at hall
        exact hopen (Inv.openEdges_eq_zero.mpr hall)
      cases he : s.edge ⟨t, k⟩ with
      | unprocessed => exact absurd he (hprocessed k hk)
      | settled => exact absurd he hopen
      | taken c =>
        have hmem := f.taken c _ he
        have hq := hquiet c
        cases hp : s.pc c <;> rw [hp] at hmem hq <;> first | exact hq.elim | cases hmem
      | listed i =>
        have hd := List.getElem?_eq_getElem hk
        have hdepends : (s.sub t).stage.Depends := by
          rw [hst]
          trivial
        obtain hinvalid | ⟨u, hlt, e, o, hwin⟩ := f.behind t hdepends k _ hd
        · cases hinvalid.symm.trans (f.listed t k i _ he hd)
        obtain ⟨rfl, hheld, _⟩ := o.listed i he
        obtain ⟨w, hw, hstarted⟩ := ih u hlt (h.held _ u hheld).2
        have hgen := (o.issued.generation h hwin).mpr ?_
        · exact ⟨w, .head ⟨hdepends, _, List.getElem_mem hk, hheld, hgen⟩ hw, hstarted⟩
        · obtain ⟨_, _, he⟩ | ⟨hover, _⟩ := h.issued u _ e o.issued.1
          · exact he.symm
          · exact absurd (h.held _ u hheld).2 hover.not_holding

/-- So does a call that waits for a task. -/
theorem started_of_pending (hquiet : ∀ c, (s.pc c).Quiet) (hready : s.ready = 0) (hx : Current s x)
    (hpending : Pending cfg s x) :
    ∃ t, Holds s x t ∧ ∃ u, Relation.ReflTransGen (Needs s) t u ∧ Started s u := by
  obtain ⟨hvalid, _, hgen⟩ := hpending.1
  obtain hinvalid | ⟨t, e, hx, hwin⟩ := hx
  · cases hvalid.symm.trans hinvalid
  have hheld := h.held_of_generation hx hwin hgen
  exact ⟨t, ⟨hheld, hgen⟩, f.started h hquiet hready (h.held x.index t hheld).2⟩

end Found

end Thunderbolt.Runtime.Lifecycle
