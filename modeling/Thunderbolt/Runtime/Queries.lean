import Thunderbolt.Runtime.ExactlyOnce

/-! Completion queries while slots are recycled.

`is_complete_internal` reads the generation, the state and the generation again,
while the slot is released and handed out. What `Completed` in a slot says, at any
moment, is `Recorded`; what a query knows after each read is `Answer`. -/
namespace Thunderbolt.Runtime.Lifecycle
open Concurrent

variable {Call : Type} [DecidableEq Call] {cfg : PoolConfig} {a : Act Call} {s s' : State Call}

/-- `complete()` has been called for it. -/
def Stage.Finished : Stage Call → Prop
  | ended _ | left _ | retired => True
  | _ => False

omit [DecidableEq Call] in
theorem Stage.Uncalled.not_finished {st : Stage Call} (h : st.Uncalled) : ¬st.Finished := by
  cases st <;> first | exact id | exact h.elim

/-- The submissions for which `Completed` had been stored when a query began. -/
def Pc.before : Pc Call → ℕ → Bool
  | asking _ _ b | reading _ _ b | rechecking _ _ b _ | answered _ _ b _ => b
  | _ => fun _ => false

/-- `Completed` in a slot. -/
structure Recorded (cfg : PoolConfig) (s : State Call) : Prop where
  submitted : ∀ t, (s.sub t).completed = true → t < s.submitted
  finished : ∀ t, (s.sub t).completed = true → (s.sub t).stage.Finished ∧ (s.sub t).ended = true
  gone : ∀ t, (s.sub t).issued ≠ none → (s.sub t).stage.Over → (s.sub t).completed = true
  releasing : ∀ c r i t l, s.pc c = .releasing r i (.dependents t l) → (s.sub t).completed = true
  capacity : ∀ t i e, (s.sub t).issued = some (i, e) → i < cfg.capacity
  held : ∀ i t, (s.slots i).place = .held t →
    ((s.slots i).state = .Completed ↔ (s.sub t).completed = true)
  free : ∀ i, (s.slots i).place = .free → (s.slots i).state ≠ .Completed
  hands : ∀ i c, (s.slots i).place = .inHands c → (s.slots i).state = .Completed →
    ∃ next, s.pc c = .releasing .resetting i next ∨ s.pc c = .releasing .freeing i next
  before : ∀ c t, (s.pc c).before t = true → (s.sub t).completed = true

namespace Advance
variable {c : Call} {x y : Submission Call}

omit [DecidableEq Call]

theorem completed (h : Advance c x y) : y.completed = x.completed ∨ x.stage = .ended c ∧
    y = {x with completed := true} := by
  cases h
  case complete hst => exact .inr ⟨hst, rfl⟩
  all_goals exact .inl rfl

theorem finished (h : Advance c x y) (hx : x.stage.Finished) : y.stage.Finished := by
  cases h
  case complete => exact hx
  case drive hst => obtain ⟨hst, _⟩ | hst | hst | hst := hst <;> rw [hst] at hx <;> exact hx.elim
  case call hst => obtain hst | hst := hst <;> rw [hst] at hx <;> exact hx.elim
  case ends | endsInline | leave | retire => trivial
  all_goals
    exfalso
    simp_all [Stage.Finished]

theorem ended (h : Advance c x y) (hx : x.ended = true) : y.ended = true := by
  cases h
  case ends | endsInline => rfl
  all_goals exact hx

/-- How a task comes to have no slot after its body. -/
theorem over_of (h : Advance c x y) (hy : y.stage.Over) :
    x.stage = .ended c ∧ y.stage = .left c ∨ x.stage.Over ∨
      x.stage = .running c ∧ y.issued = none ∨ x.stage = .thrown c := by
  cases h
  case leave hst => exact .inl ⟨hst, rfl⟩
  case endsInline hst hnone => exact .inr (.inr (.inl ⟨hst, hnone⟩))
  case retire hst =>
    obtain hst | hst := hst
    · exact .inr (.inl (by rw [hst]; trivial))
    · exact .inr (.inr (.inr hst))
  case complete hst =>
    rw [show (_ : Submission Call).stage = _ from hst] at hy
    exact hy.elim
  all_goals exact hy.elim

end Advance

namespace Inv

/-- What has ended stays so. -/
theorem ended_step (h : Inv cfg s) (hs : Step cfg a s s') {t : ℕ} (ht : t < s.submitted)
    (hended : (s.sub t).ended = true) : (s'.sub t).ended = true := by
  obtain heq | hadv | ⟨rfl, _⟩ := h.advance hs t
  · rwa [heq]
  · exact hadv.ended hended
  · omega

theorem completed_mono (h : Inv cfg s) (hs : Step cfg a s s') {t : ℕ} (ht : t < s.submitted)
    (hc : (s.sub t).completed = true) : (s'.sub t).completed = true := by
  obtain heq | hadv | ⟨rfl, _⟩ := h.advance hs t
  · rwa [heq]
  · obtain heq | ⟨_, heq⟩ := hadv.completed
    · rwa [heq]
    · rw [heq]
  · omega

/-- `Completed` is recorded by the step that stores it. -/
theorem completed_same (h : Inv cfg s) (hs : Step cfg a s s')
    (hpc : ∀ t x l, s.pc a.call ≠ .completing t x l) {t : ℕ} (ht : t < s.submitted) :
    (s'.sub t).completed = (s.sub t).completed := by
  cases hs
  case complete hpc' => exact absurd hpc' (hpc _ _ _)
  case submit | submit_emplace => exact congrArg _ (Function.update_of_ne ht.ne _ _)
  case dequeue c x _ hx =>
    obtain ⟨u, _, _, heq⟩ := h.claim_eq c hx
    show (s.claim c x t).completed = _
    rw [heq]
    exact proj_update Submission.completed _ (by rfl) t
  case bump next _ =>
    cases next with
    | dependents u l => exact proj_update Submission.completed _ (by rfl) t
    | rethrow u => rfl
  all_goals first | rfl | exact proj_update Submission.completed _ (by rfl) t

/-- What a step of the call `c` can make of the state of slot `i`. -/
inductive StateStep (s s' : State Call) (c : Call) (i : ℕ) : Prop where
  | same : (s'.slots i).state = (s.slots i).state →
      (∀ t < s.submitted, (s.slots i).place = .held t →
        (s'.sub t).completed = (s.sub t).completed) → StateStep s s' c i
  | stored (t : ℕ) : (s.slots i).place = .held t → (s.sub t).stage.Uncalled →
      (s'.slots i).state ≠ .Completed → (s'.sub t).completed = (s.sub t).completed →
      StateStep s s' c i
  | completed (t : ℕ) : (s.slots i).place = .held t → (s'.slots i).state = .Completed →
      (s'.sub t).completed = true → StateStep s s' c i
  | mine : (s.slots i).place = .inHands c → (s'.slots i).state ≠ .Completed → StateStep s s' c i

theorem stateStep (h : Inv cfg s) (hs : Step cfg a s s') (i : ℕ) : StateStep s s' a.call i := by
  have hsame : (∀ t x l, s.pc a.call ≠ .completing t x l) →
      (s'.slots i).state = (s.slots i).state → StateStep s s' a.call i :=
    fun hpc hstate => .same hstate fun t ht _ => h.completed_same hs hpc ht
  have hstored : ∀ {x : TaskHandle} {t : ℕ}, Of s x t → (s.sub t).stage.Uncalled →
      (∀ u y l, s.pc a.call ≠ .completing u y l) → (s'.slots x.index).state ≠ .Completed →
      (i ≠ x.index → s'.slots i = s.slots i) → StateStep s s' a.call i := by
    intro x t hof hst hpc hne hslot
    by_cases hi : i = x.index
    · have ht : t < s.submitted := by
        by_contra hle
        rw [(h.fresh t (Nat.le_of_not_lt hle)).1] at hst
        exact hst
      rw [hi]
      exact .stored t (h.place hof hst.holding) hst hne (h.completed_same hs hpc ht)
    · exact hsame hpc (by rw [hslot hi])
  have hmine : ∀ {j : ℕ}, (s.slots j).place = .inHands a.call →
      (∀ u y l, s.pc a.call ≠ .completing u y l) → (s'.slots j).state ≠ .Completed →
      (i ≠ j → s'.slots i = s.slots i) → StateStep s s' a.call i := by
    intro j hplace hpc hne hslot
    by_cases hi : i = j
    · exact .mine (hi ▸ hplace) (hi ▸ hne)
    · exact hsame hpc (by rw [hslot hi])
  have hof : ∀ {j : ℕ} {x : Slot Call}, x.state = (s.slots j).state →
      (Function.update s.slots j x i).state = (s.slots i).state := fun hx => proj_update Slot.state _ hx i
  cases id hs
  case publish hpc =>
    obtain ⟨hst, hx⟩ := h.at_pc hpc
    refine hstored hx ?_ (by simp [hpc]) (by simp) (fun hi => by simp [hi])
    obtain ⟨hst, _⟩ | hst := hst <;> rw [hst] <;> trivial
  case storeWaiting hpc =>
    obtain ⟨hst, hx⟩ := h.at_pc hpc
    exact hstored hx (by rw [hst]; trivial) (by simp [hpc]) (by simp) (fun hi => by simp [hi])
  case exchange hpc =>
    obtain ⟨t, hst, hx⟩ := h.at_pc hpc
    exact hstored hx (by rw [hst]; trivial) (by simp [hpc]) (by simp) (fun hi => by simp [hi])
  case drive hpc =>
    obtain ⟨_, hst, hx⟩ := h.at_pc hpc
    exact hstored hx (by rw [hst]; trivial) (by simp [hpc]) (by simp) (fun hi => by simp [hi])
  case create hpc => exact hmine (h.at_pc hpc).2.1 (by simp [hpc]) (by simp) (fun hi => by simp [hi])
  case storeFree c j next hpc =>
    have hok : ReleaseOk s _ _ _ next := h.at_pc hpc
    have hplace : (s.slots j).place = .inHands c := by cases next <;> exact hok.2
    exact hmine hplace (by simp [hpc]) (by simp) (fun hi => by simp [hi])
  case complete c t x l hpc =>
    obtain ⟨hst, hx⟩ := h.at_pc hpc
    by_cases hi : i = x.index
    · rw [hi]
      exact .completed t (h.place hx (by rw [hst]; trivial)) (by simp) (by simp)
    · refine .same (by simp [hi]) fun u _ hu => ?_
      have hne : u ≠ t := by
        intro heq
        obtain ⟨e, he, _⟩ := hx
        rw [heq] at hu
        rw [(h.held i t hu).1] at he
        cases he
        exact hi rfl
      simp [hne]
  case submit hpc | submit_emplace hpc | exhausted hpc | constructInline hpc | constructThrows hpc |
      constructInlineThrows hpc | enqueue_ready hpc | awaited hpc | run_inline hpc | inlineEnds hpc |
      retire hpc | ends hpc | looped hpc | pass hpc | ask hpc | read hpc | answer hpc =>
    exact hsame (by simp [hpc]) rfl
  case stale hpc _ _ | lookup hpc _ _ | refuse hpc _ _ => exact hsame (by simp [hpc]) rfl
  case await hpc _ | dequeue hpc _ | execute hpc _ | executeStale hpc _ | call hpc _ |
      dependent hpc _ | dependentStale hpc _ | askStale hpc _ | askFound hpc _ | recheckStale hpc _ |
      recheck hpc _ =>
    exact hsame (by simp [hpc]) rfl
  case acquire hpc _ => exact hsame (by simp [hpc]) (hof (by rfl))
  case open_successors hpc | construct hpc | storePending hpc | settle hpc | take_successors hpc |
      destroy hpc | reenter hpc | bump hpc | reset_successors hpc | list hpc =>
    exact hsame (by simp [hpc]) (hof (by rfl))
  case unguardLast hpc _ | unguard hpc _ | subtract hpc _ | subtractLast hpc _ =>
    exact hsame (by simp [hpc]) (hof (by rfl))
  case add hpc _ _ => exact hsame (by simp [hpc]) (hof (by rfl))

/-- What the call that releases a slot does next. -/
theorem releasing_inv (hs : Step cfg a s s') {r : Release} {i : ℕ} {next : Next}
    (hpc : s.pc a.call = .releasing r i next) :
    (r = .bumping → s'.pc a.call = .releasing .resetting i next) ∧
      (r = .resetting → s'.pc a.call = .releasing .freeing i next) ∧
      (r = .freeing → (s'.slots i).state = .Free) := by
  cases hs
  case destroy hpc' | reenter hpc' | bump hpc' | reset_successors hpc' | storeFree hpc' | list hpc' =>
    cases hpc'.symm.trans hpc
    simp
  all_goals simp_all

end Inv

namespace Recorded

theorem finished_step (r : Recorded cfg s) (h : Inv cfg s) (hs : Step cfg a s s') (t : ℕ)
    (hc : (s'.sub t).completed = true) : (s'.sub t).stage.Finished ∧ (s'.sub t).ended = true := by
  obtain heq | hadv | ⟨_, _, deps, _, heq⟩ := h.advance hs t
  · rw [heq] at hc ⊢
    exact r.finished t hc
  · obtain heq | ⟨hst, heq⟩ := hadv.completed
    · rw [heq] at hc
      obtain ⟨hfin, hended⟩ := r.finished t hc
      exact ⟨hadv.finished hfin, hadv.ended hended⟩
    · have ht : t < s.submitted := by
        by_contra hle
        rw [(h.fresh t (Nat.le_of_not_lt hle)).1] at hst
        cases hst
      have hlog := h.logged t ht
      unfold Logged at hlog
      rw [hst] at hlog
      rw [heq]
      exact ⟨by rw [show (_ : Submission Call).stage = _ from hst]; trivial, hlog.2⟩
  · rw [heq] at hc
    cases hc

theorem submitted_step (r : Recorded cfg s) (h : Inv cfg s) (hs : Step cfg a s s') (t : ℕ)
    (hc : (s'.sub t).completed = true) : t < s'.submitted := by
  have hle : s.submitted ≤ s'.submitted := by
    obtain heq | ⟨heq, _⟩ := Inv.submitted_step hs <;> omega
  obtain heq | hadv | ⟨rfl, hnew, _⟩ := h.advance hs t
  · rw [heq] at hc
    exact (r.submitted t hc).trans_le hle
  · obtain heq | ⟨hst, _⟩ := hadv.completed
    · rw [heq] at hc
      exact (r.submitted t hc).trans_le hle
    · by_contra hge
      rw [(h.fresh t (by omega)).1] at hst
      cases hst
  · omega

theorem over_step (r : Recorded cfg s) (h : Inv cfg s) (hs : Step cfg a s s') (t : ℕ)
    (hissued : (s'.sub t).issued ≠ none) (hover : (s'.sub t).stage.Over) :
    (s'.sub t).completed = true := by
  obtain heq | hadv | ⟨_, _, deps, _, heq⟩ := h.advance hs t
  · rw [heq] at hissued hover ⊢
    exact r.gone t hissued hover
  · have ht : (s.sub t).completed = true → (s'.sub t).completed = true :=
      fun hc => h.completed_mono hs (r.submitted t hc) hc
    obtain ⟨hst, hst'⟩ | hst | ⟨_, hnone⟩ | hst := hadv.over_of hover
    · obtain ⟨i, l, hpc, _⟩ := h.leaves hs hst hst'
      exact ht (r.releasing _ _ _ _ _ hpc)
    · obtain heq | hst' := hadv.issued
      · exact ht (r.gone t (by rwa [← heq]) hst)
      · rw [hst'] at hst
        exact hst.elim
    · exact absurd hnone hissued
    · obtain heq | hst' := hadv.issued
      · rw [heq] at hissued
        obtain ⟨p, hp⟩ := Option.ne_none_iff_exists'.mp hissued
        obtain ⟨hh, _⟩ | ⟨hh, _⟩ := h.issued t p.1 p.2 hp <;> rw [hst] at hh <;> exact hh.elim
      · cases hst.symm.trans hst'
  · rw [heq] at hissued
    exact absurd rfl hissued

theorem releasing_step (r : Recorded cfg s) (h : Inv cfg s) (hs : Step cfg a s s') (c : Call)
    (at_ : Release) (i t : ℕ) (l : Taken) (hpc : s'.pc c = .releasing at_ i (.dependents t l)) :
    (s'.sub t).completed = true := by
  have hold : ∀ {at_ l}, s.pc c = .releasing at_ i (.dependents t l) → (s'.sub t).completed = true := by
    intro at_ l hpc
    have hc := r.releasing c at_ i t l hpc
    exact h.completed_mono hs (r.submitted t hc) hc
  rcases eq_or_ne c a.call with rfl | hc
  · cases id hs <;> replace hpc := (Function.update_self ..).symm.trans hpc
    case complete =>
      cases hpc
      simp
    case destroy hpc' | bump hpc' | reset_successors hpc' | storeFree hpc' =>
      cases hpc
      exact hold hpc'
    case reenter next hpc' =>
      cases next <;> cases hpc
      exact hold hpc'
    case create =>
      split at hpc <;> cases hpc
    case exhausted =>
      unfold exhausted at hpc
      split at hpc
      · cases hpc
      · split at hpc <;> cases hpc
    case open_successors => split at hpc <;> cases hpc
    case list next _ => cases next <;> cases hpc
    case answer o _ _ _ _ => cases o <;> cases hpc
    all_goals cases hpc
  · rw [Inv.pc_other hs hc] at hpc
    exact hold hpc

theorem capacity_step (r : Recorded cfg s) (h : Inv cfg s) (hs : Step cfg a s s') (t i e : ℕ)
    (hissued : (s'.sub t).issued = some (i, e)) : i < cfg.capacity := by
  obtain heq | hadv | ⟨_, _, deps, _, heq⟩ := h.advance hs t
  · exact r.capacity t i e (by rwa [← heq])
  · obtain heq | hst := hadv.issued
    · exact r.capacity t i e (by rwa [← heq])
    · refine h.capacity_step hs i ?_
      rw [(h.issues hs hst hissued).1]
      exact nofun
  · rw [heq] at hissued
    cases hissued

/-- `Completed` is recorded of the task in the slot. -/
theorem held_step (r : Recorded cfg s) (h : Inv cfg s) (hs : Step cfg a s s') (i t : ℕ)
    (hi : (s'.slots i).place = .held t) :
    (s'.slots i).state = .Completed ↔ (s'.sub t).completed = true := by
  have hfin := r.finished_step h hs t
  rcases h.moved_step hs i with ⟨hplace, _⟩ | ⟨_, hplace, _⟩ | ⟨u, hhands, hplace, _, _, hst, _, hpc⟩ |
    ⟨u, _, hplace, _⟩ | ⟨_, hplace, _⟩
  · rw [hi] at hplace
    have ht : t < s.submitted := by
      by_contra hle
      have hhold := (h.held i t hplace.symm).2
      rw [(h.fresh t (Nat.le_of_not_lt hle)).1] at hhold
      exact hhold
    cases h.stateStep hs i with
    | same hstate hc => rw [hstate, hc t ht hplace.symm, r.held i t hplace.symm]
    | stored u hu huncalled hne hc =>
      cases hplace.trans hu
      refine iff_of_false hne ?_
      rw [hc]
      exact fun hc => huncalled.not_finished (r.finished t hc).1
    | completed u hu hstate hc =>
      cases hplace.trans hu
      exact iff_of_true hstate hc
    | mine hhands _ => cases hplace.trans hhands
  · cases hi.symm.trans hplace
  · cases hi.symm.trans hplace
    have hnot : ¬(s'.sub t).completed = true := by
      intro hc
      have hstage := (hfin hc).1
      rw [hst] at hstage
      exact hstage
    refine iff_of_false ?_ hnot
    cases h.stateStep hs i with
    | same hstate _ =>
      intro hc
      rw [hstate] at hc
      obtain ⟨next, hnext | hnext⟩ := r.hands i a.call hhands hc <;>
        obtain hpc | hpc := hpc <;> cases hpc.symm.trans hnext
    | stored u hu _ _ _ | completed u hu _ _ => cases hu.symm.trans hhands
    | mine _ hne => exact hne
  · cases hi.symm.trans hplace
  · cases hi.symm.trans hplace

theorem free_step (r : Recorded cfg s) (h : Inv cfg s) (hs : Step cfg a s s') (i : ℕ)
    (hi : (s'.slots i).place = .free) : (s'.slots i).state ≠ .Completed := by
  rcases h.moved_step hs i with ⟨hplace, _⟩ | ⟨_, hplace, _⟩ | ⟨u, _, hplace, _⟩ |
    ⟨u, _, hplace, _⟩ | ⟨hhands, _, next, hpc⟩
  · rw [hi] at hplace
    cases h.stateStep hs i with
    | same hstate _ =>
      rw [hstate]
      exact r.free i hplace.symm
    | stored u hu _ _ _ | completed u hu _ _ | mine hu _ => cases hu.symm.trans hplace.symm
  · cases hi.symm.trans hplace
  · cases hi.symm.trans hplace
  · cases hi.symm.trans hplace
  · cases h.stateStep hs i with
    | same hstate _ =>
      intro hc
      rw [hstate] at hc
      obtain ⟨next, hnext | hnext⟩ := r.hands i a.call hhands hc <;> cases hpc.symm.trans hnext
    | stored u hu _ _ _ | completed u hu _ _ => cases hu.symm.trans hhands
    | mine _ hne => exact hne

theorem hands_step (r : Recorded cfg s) (h : Inv cfg s) (hs : Step cfg a s s') (i : ℕ) (c : Call)
    (hi : (s'.slots i).place = .inHands c) (hstate : (s'.slots i).state = .Completed) :
    ∃ next, s'.pc c = .releasing .resetting i next ∨ s'.pc c = .releasing .freeing i next := by
  -- A slot in the hands of a call is not handed out, so `Completed` was there before.
  have hold : (∀ t, (s.slots i).place ≠ .held t) → (s.slots i).state = .Completed := by
    intro hnot
    cases h.stateStep hs i with
    | same heq _ => rwa [← heq]
    | stored u hu _ _ _ | completed u hu _ _ => exact absurd hu (hnot u)
    | mine _ hne => exact absurd hstate hne
  rcases h.moved_step hs i with ⟨hplace, _⟩ | ⟨hfree, _⟩ | ⟨u, _, hplace, _⟩ |
    ⟨u, _, hplace, _, _, _, l, hpc⟩ | ⟨_, hplace, _⟩
  · rw [hi] at hplace
    have hc := hold (by rw [← hplace]; exact nofun)
    obtain ⟨next, hpc⟩ := r.hands i c hplace.symm hc
    rcases eq_or_ne c a.call with rfl | hne
    · refine ⟨next, .inr ?_⟩
      obtain hpc | hpc := hpc
      · exact (Inv.releasing_inv hs hpc).2.1 rfl
      · rw [(Inv.releasing_inv hs hpc).2.2 rfl] at hstate
        cases hstate
    · rw [Inv.pc_other hs hne]
      exact ⟨next, hpc⟩
  · exact absurd (hold (by rw [hfree]; exact nofun)) (r.free i hfree)
  · cases hi.symm.trans hplace
  · cases hi.symm.trans hplace
    exact ⟨_, .inl ((Inv.releasing_inv hs hpc).1 rfl)⟩
  · cases hi.symm.trans hplace

/-- A snapshot of what has completed stays true. -/
theorem before_step (r : Recorded cfg s) (h : Inv cfg s) (hs : Step cfg a s s') (c : Call) (t : ℕ)
    (hb : (s'.pc c).before t = true) : (s'.sub t).completed = true := by
  have hmono : (s.sub t).completed = true → (s'.sub t).completed = true :=
    fun hc => h.completed_mono hs (r.submitted t hc) hc
  rcases eq_or_ne c a.call with rfl | hc
  · have hold : (s.pc a.call).before t = true → (s'.sub t).completed = true :=
      fun hb => hmono (r.before _ t hb)
    cases id hs <;> simp only [State.pcAt, State.issue, Act.call, Function.update_self] at hb
    case ask | await => exact hmono hb
    case askStale hpc _ | askFound hpc _ | recheckStale hpc _ | recheck hpc _ =>
      exact hold (by simpa [hpc, Pc.before] using hb)
    case read hpc => exact hold (by simpa [hpc, Pc.before] using hb)
    case create => split at hb <;> cases hb
    case exhausted =>
      unfold exhausted at hb
      split at hb
      · cases hb
      · split at hb <;> cases hb
    case open_successors => split at hb <;> cases hb
    case list next _ => cases next <;> cases hb
    case answer o _ _ _ _ => cases o <;> cases hb
    all_goals cases hb
  · rw [Inv.pc_other hs hc] at hb
    exact hmono (r.before c t hb)

omit [DecidableEq Call] in
theorem initial : Recorded cfg (initial : State Call) where
  submitted _ := nofun
  finished _ := nofun
  gone _ hne := absurd rfl hne
  releasing _ _ _ _ _ := nofun
  capacity _ _ _ := nofun
  held _ _ := nofun
  free _ _ := nofun
  hands _ _ := nofun
  before _ _ := nofun

theorem step (r : Recorded cfg s) (h : Inv cfg s) (hs : Step cfg a s s') : Recorded cfg s' where
  submitted := r.submitted_step h hs
  finished := r.finished_step h hs
  gone := r.over_step h hs
  releasing := r.releasing_step h hs
  capacity := r.capacity_step h hs
  held := r.held_step h hs
  free := r.free_step h hs
  hands := r.hands_step h hs
  before := r.before_step h hs

theorem reachable (h : Reachable (sized Call cfg) s) : Recorded cfg s := by
  induction h with
  | initial hs =>
    subst hs
    exact initial
  | step h hs ih => exact ih.step (Inv.reachable h) hs.1

end Recorded

/-! ### What a query knows after each read -/

/-- `x` is the handle issued for `t`, when its slot had been released `e` times. -/
def IssuedAt (s : State Call) (x : TaskHandle) (t e : ℕ) : Prop :=
  (s.sub t).issued = some (x.index, e) ∧ x.generation = e % word

/-- What a call that asks about `x`, the handle of `t`, has learnt. -/
def Answer (s : State Call) (x : TaskHandle) (t e : ℕ) : Pc Call → Prop
  | .rechecking _ y b st => y = x → e < (s.slots x.index).releases ∨
      (st = .Completed → (s.sub t).completed = true) ∧ (b t = true → st = .Completed)
  | .answered _ y b r => y = x →
      (r = true → (s.sub t).completed = true) ∧ (b t = true → r = true)
  | _ => True

namespace IssuedAt
variable {x : TaskHandle} {t e : ℕ}

theorem step (hx : IssuedAt s x t e) (h : Inv cfg s) (hs : Step cfg a s s') : IssuedAt s' x t e :=
  ⟨h.issued_step hs hx.1, hx.2⟩

/-- A slot that was released after the handle was issued: the task has completed. -/
theorem outlived (hx : IssuedAt s x t e) (h : Inv cfg s) (r : Recorded cfg s)
    (hlt : e < (s.slots x.index).releases) : (s.sub t).completed = true := by
  obtain ⟨_, _, he⟩ | ⟨hover, _⟩ := h.issued t x.index e hx.1
  · omega
  · refine r.gone t ?_ hover
    rw [hx.1]
    exact nofun

theorem le (hx : IssuedAt s x t e) (h : Inv cfg s) : e ≤ (s.slots x.index).releases := by
  obtain ⟨_, _, he⟩ | ⟨_, he⟩ := h.issued t x.index e hx.1 <;> omega

/-- The generations agree while the slot is the task's own, and not again before they wrap. -/
theorem generation (hx : IssuedAt s x t e) (h : Inv cfg s)
    (hwin : (s.slots x.index).releases < e + word) :
    (s.slots x.index).generation = x.generation ↔ (s.slots x.index).releases = e := by
  have hle := hx.le h
  rw [h.generation, hx.2]
  refine ⟨fun heq => ?_, fun heq => by rw [heq]⟩
  simp only [word] at heq hwin
  omega

/-- An issued handle that `get` does not find is of a task that has completed. -/
theorem stale (hx : IssuedAt s x t e) (h : Inv cfg s) (r : Recorded cfg s)
    (hwin : (s.slots x.index).releases < e + word) (hnot : ¬s.Resolves cfg x) :
    (s.sub t).completed = true := by
  have hcap := r.capacity t x.index e hx.1
  refine hx.outlived h r ?_
  by_contra hge
  refine hnot ⟨?_, hcap, (hx.generation h hwin).mpr (by have := hx.le h; omega)⟩
  have hfits := cfg.fits
  simp only [TaskHandle.valid, bne_iff_ne]
  omega

theorem answer_step (hx : IssuedAt s x t e) (h : Inv cfg s) (r : Recorded cfg s)
    (hs : Step cfg a s s') (hwin : (s.slots x.index).releases < e + word) (c : Call)
    (hc : Answer s x t e (s.pc c)) : Answer s' x t e (s'.pc c) := by
  have hmono : (s.sub t).completed = true → (s'.sub t).completed = true :=
    fun hc => h.completed_mono hs (r.submitted t hc) hc
  rcases eq_or_ne c a.call with rfl | hne
  · cases id hs <;>
      simp only [State.pcAt, State.issue, Act.call, Function.update_self]
    case askStale hpc hstale =>
      intro heq
      subst heq
      exact ⟨fun _ => hmono (hx.stale h r hwin hstale), fun _ => rfl⟩
    case read c o y b hpc =>
      intro heq
      subst heq
      obtain ⟨_, hplace, he⟩ | ⟨_, hlt⟩ := h.issued t _ e hx.1
      · have hheld := r.held _ t hplace
        refine .inr ⟨fun hst => hmono (hheld.mp hst), fun hb => hheld.mpr ?_⟩
        exact r.before c t (by rw [hpc]; exact hb)
      · exact .inl hlt
    case recheckStale o y b st hpc hgen =>
      intro heq
      subst heq
      have hgone := mt (hx.generation h hwin).mpr hgen
      have hle := hx.le h
      exact ⟨fun _ => hmono (hx.outlived h r (by omega)), fun _ => rfl⟩
    case recheck c o y b st hpc hgen =>
      intro heq
      subst heq
      have hc : Answer s y t e (s.pc c) := hc
      rw [hpc] at hc
      obtain hlt | ⟨hdone, hbefore⟩ := hc rfl
      · have := (hx.generation h hwin).mp hgen
        omega
      · exact ⟨fun hst => hmono (hdone (by simpa using hst)), fun hb => by simp [hbefore hb]⟩
    case create => split <;> trivial
    case exhausted =>
      unfold exhausted
      split
      · trivial
      · split <;> trivial
    case open_successors => split <;> trivial
    case list next _ => cases next <;> trivial
    case answer o _ _ _ _ => cases o <;> trivial
    all_goals trivial
  · rw [Inv.pc_other hs hne]
    cases hpc : s.pc c with
    | rechecking o y b st =>
      rw [hpc] at hc
      intro heq
      have hle := Inv.releases_le hs x.index
      exact (hc heq).imp (fun hlt => hlt.trans_le hle) fun ⟨hdone, hb⟩ => ⟨hmono ∘ hdone, hb⟩
    | answered o y b res =>
      rw [hpc] at hc
      intro heq
      exact ⟨hmono ∘ (hc heq).1, (hc heq).2⟩
    | _ => trivial

end IssuedAt

/-- What a query answers about a handle that was issued before its first read. -/
theorem answer_run {s₀ : State Call} {c : Call} {o : Option (ℕ × ℕ)} {x : TaskHandle} {b : ℕ → Bool}
    {t e : ℕ} (h₀ : Reachable (sized Call cfg) s₀) (hx : IssuedAt s₀ x t e)
    (hask : s₀.pc c = .asking o x b) (h : Reachable ((sized Call cfg).startingAt s₀) s)
    (hwin : (s.slots x.index).releases < e + word) :
    IssuedAt s x t e ∧ Answer s x t e (s.pc c) := by
  induction h with
  | initial heq =>
    rw [heq]
    exact ⟨hx, by rw [hask]; trivial⟩
  | step h hs ih =>
    have hle := Inv.releases_le hs.1 x.index
    obtain ⟨hx, hans⟩ := ih (by omega)
    have hreach := h₀.trans h
    have hinv := Inv.reachable hreach
    exact ⟨hx.step hinv hs.1,
      hx.answer_step hinv (Recorded.reachable hreach) hs.1 (by omega) c hans⟩

/-- **A query about an issued handle whose slot is released fewer than `2^32` times after
that answers `true` only after the body has ended, and answers `true` if `Completed` was
stored before it began.** -/
theorem query_exact {s₀ : State Call} {c : Call} {o o' : Option (ℕ × ℕ)} {x : TaskHandle}
    {b b' : ℕ → Bool} {t e : ℕ} {r : Bool} (h₀ : Reachable (sized Call cfg) s₀)
    (hx : IssuedAt s₀ x t e) (hask : s₀.pc c = .asking o x b)
    (h : Reachable ((sized Call cfg).startingAt s₀) s)
    (hwin : (s.slots x.index).releases < e + word) (hpc : s.pc c = .answered o' x b' r) :
    (r = true → (s.sub t).ended = true) ∧ (b' t = true → r = true) := by
  obtain ⟨_, hans⟩ := answer_run h₀ hx hask h hwin
  rw [hpc] at hans
  obtain ⟨hdone, hbefore⟩ := hans rfl
  exact ⟨fun hr => ((Recorded.reachable (h₀.trans h)).finished t (hdone hr)).2, hbefore⟩

def singleSlot : PoolConfig := ⟨1, by show 1 ≤ 0xFFFFFFFF; omega⟩

/-- A task from its submission to its retirement. -/
theorem one_task : ∃ s : State Unit, Reachable (plain Unit singleSlot) s ∧ s.pc () = .idle ∧
    (s.sub 0).issued = some (0, 0) ∧ (s.slots 0).releases = 1 ∧ (s.slots 0).generation = 1 ∧
      s.submitted = 1 := by
  have h0 : Reachable (plain Unit singleSlot) initial := .initial rfl
  have h1 := h0.step ⟨Step.submit (c := ()) [] (by rfl), show 0 < word - 1 by decide⟩
  have h2 := h1.step ⟨Step.acquire (c := ()) 0 (by rfl) (by decide) (by rfl), trivial⟩
  have h3 := h2.step ⟨Step.open_successors (c := ()) (by rfl), trivial⟩
  have h4 := h3.step ⟨Step.create (c := ()) (by rfl), trivial⟩
  have h5 := h4.step ⟨Step.publish (c := ()) (by rfl), trivial⟩
  have h6 := h5.step ⟨Step.enqueue_ready (c := ()) (by rfl), trivial⟩
  have h7 := h6.step ⟨Step.dequeue (c := ()) ⟨0, 0⟩ (by rfl)
    (by exact Multiset.mem_cons_self (⟨0, 0⟩ : TaskHandle) 0), trivial⟩
  have h8 := h7.step ⟨Step.execute (c := ()) (by rfl) ⟨rfl, by decide, by rfl⟩, trivial⟩
  have h9 := h8.step ⟨Step.exchange (c := ()) (by rfl), trivial⟩
  have h10 := h9.step ⟨Step.call (c := ()) (by rfl) (by rfl), trivial⟩
  have h11 := h10.step ⟨Step.ends (c := ()) (by rfl), trivial⟩
  have h12 := h11.step ⟨Step.take_successors (c := ()) (by rfl), trivial⟩
  have h13 := h12.step ⟨Step.complete (c := ()) (by rfl), trivial⟩
  have h14 := h13.step ⟨Step.destroy (c := ()) (by rfl), trivial⟩
  have h15 := h14.step ⟨Step.bump (c := ()) (by rfl), trivial⟩
  have h16 := h15.step ⟨Step.reset_successors (c := ()) (by rfl), trivial⟩
  have h17 := h16.step ⟨Step.storeFree (c := ()) (by rfl), trivial⟩
  have h18 := h17.step ⟨Step.list (c := ()) (by rfl), trivial⟩
  have h19 := h18.step ⟨Step.looped (c := ()) (by rfl), trivial⟩
  have h20 := h19.step ⟨Step.retire (c := ()) (by rfl), trivial⟩
  exact ⟨_, h20, by rfl, by rfl, by rfl, by rfl, by rfl⟩

/-- A query about a task that has left its slot. -/
theorem query_exact_stale : ∃ s₀ s : State Unit, Reachable (sized Unit singleSlot) s₀ ∧
    s₀.pc () = .asking none ⟨0, 0⟩ (fun u => (s₀.sub u).completed) ∧
      Reachable ((sized Unit singleSlot).startingAt s₀) s ∧ s.pc () = .answered none ⟨0, 0⟩
        (fun u => (s₀.sub u).completed) true ∧ (s.sub 0).ended = true := by
  obtain ⟨s, h, hidle, hissued, hreleases, hgen, _⟩ := one_task
  have h := h.restrict_mono fun _ _ => Act.Plain.sized
  have h1 := h.step ⟨Step.ask ⟨0, 0⟩ hidle, trivial⟩
  have g1 : Reachable ((sized Unit singleSlot).startingAt
      (s.pcAt () (.asking none ⟨0, 0⟩ fun u => (s.sub u).completed)))
      (s.pcAt () (.asking none ⟨0, 0⟩ fun u => (s.sub u).completed)) := .initial rfl
  have hstale : ¬s.Resolves singleSlot ⟨0, 0⟩ := by
    intro hr
    cases hgen.symm.trans hr.2.2
  have hwin : (s.slots 0).releases < 0 + word := by
    rw [hreleases]
    decide
  have g2 := g1.step ⟨Step.askStale (c := ()) (h := ⟨0, 0⟩) (by rfl) hstale, trivial⟩
  exact ⟨_, _, h1, by rfl, g2, by rfl, (query_exact (c := ()) (x := ⟨0, 0⟩) (t := 0) (e := 0) h1
    ⟨hissued, rfl⟩ (by rfl) g2 hwin (by rfl)).1 rfl⟩

/-! ### A slot whose task was driven twice -/

namespace Overflow

/-- The handle of the next task in the same slot. -/
def third : TaskHandle := ⟨1, 1⟩

/-- One of two workers has completed the task; the other is about to store `Completed`. -/
structure Recycled (s : State Caller) : Prop where
  user : s.pc 0 = .idle
  worker : s.pc 1 = .looping 1 []
  other : s.pc 2 = .completing 1 second []
  ready : s.ready = 0
  place : (s.slots 1).place = .free
  generation : (s.slots 1).generation = 1
  releases : (s.slots 1).releases = 1
  submitted : s.submitted = 2

/-- The slot has a new task, which has not run; `Completed` is stored in it. -/
structure Mistaken (s : State Caller) : Prop where
  user : s.pc 0 = .idle
  state : (s.slots 1).state = .Completed
  generation : (s.slots 1).generation = 1
  releases : (s.slots 1).releases = 1
  issued : (s.sub 2).issued = some (1, 1)
  ended : (s.sub 2).ended = false

variable {s : State Caller}

theorem recycled : ∃ s, Run s ∧ Recycled s := by
  obtain ⟨s, h, hs⟩ := both
  have h1 := h.step (Step.ends hs.worker)
  have h2 := h1.step (Step.take_successors (c := 1) (by rfl))
  have h3 := h2.step (Step.ends (c := 2) hs.other)
  have h4 := h3.step (Step.take_successors (c := 2) (by rfl))
  have h5 := h4.step (Step.complete (c := 1) (by rfl))
  have h6 := h5.step (Step.destroy (c := 1) (by rfl))
  have h7 := h6.step (Step.bump (c := 1) (by rfl))
  have h8 := h7.step (Step.reset_successors (c := 1) (by rfl))
  have h9 := h8.step (Step.storeFree (c := 1) (by rfl))
  have h10 := h9.step (Step.list (c := 1) (by rfl))
  refine ⟨_, h10, hs.user, ?_, by rfl, hs.ready, by rfl, ?_, ?_, hs.submitted⟩
  · show Pc.looping 1 (s.slots 1).successors.entries = _
    rw [hs.fresh.2]
  · simp [second, hs.generation, word]
  · simp [second, hs.fresh]

theorem mistaken (h : Run s) (hs : Recycled s) : ∃ s, Run s ∧ Mistaken s := by
  obtain ⟨slots, ready, outstanding, pc, submitted, sub, edge⟩ := s
  obtain ⟨hu, _, ho, _, hp, hg, hr, hsub⟩ := hs
  simp only at hu ho hp hg hr hsub
  subst hsub
  have h1 := h.submit (Step.submit (c := 0) [] hu)
  have h2 := h1.step (Step.acquire (c := 0) 1 (by rfl) (by decide) hp)
  have h3 := h2.step (Step.open_successors (c := 0) (by rfl))
  have h4 := h3.step (Step.create (c := 0) (by rfl))
  have h5 := h4.step (Step.publish (c := 0) (by rfl))
  have h6 := h5.step (Step.enqueue_ready (c := 0) (by rfl))
  have h7 := h6.step (Step.complete (c := 2) ho)
  refine ⟨_, h7, by rfl, by rfl, ?_, ?_, ?_, by rfl⟩
  · simp [second, hg]
  · simp [second, hr]
  · simp [hr]

end Overflow

/-- After a dependency list of `2^32` entries, a query about a task in a recycled slot is
answered `true` before its body was called. -/
theorem query_overflow : ¬∀ (s₀ s : State (Fin 3)) (c : Fin 3) (x : TaskHandle) (b : ℕ → Bool) (t e : ℕ),
    Reachable (system (Fin 3) Overflow.pool) s₀ → IssuedAt s₀ x t e → s₀.pc c = .asking none x b →
    Reachable ((system (Fin 3) Overflow.pool).startingAt s₀) s →
    (s.slots x.index).releases < e + word → s.pc c = .answered none x b true →
    (s.sub t).ended = true := by
  intro hall
  obtain ⟨s, h, hs⟩ := Overflow.recycled
  obtain ⟨s, h, hs⟩ := Overflow.mistaken h hs
  have h1 := h.step (Step.ask (c := 0) Overflow.third hs.user)
  have g1 : Reachable ((system (Fin 3) Overflow.pool).startingAt
      (s.pcAt 0 (.asking none Overflow.third fun u => (s.sub u).completed)))
      (s.pcAt 0 (.asking none Overflow.third fun u => (s.sub u).completed)) := .initial rfl
  have g2 := g1.step (Step.askFound (c := 0) (h := Overflow.third) (by rfl) ⟨rfl, by decide, hs.generation⟩)
  have g3 := g2.step (Step.read (c := 0) (by rfl))
  have g4 := g3.step (Step.recheck (c := 0) (h := Overflow.third) (by rfl) hs.generation)
  have hwin : (s.slots 1).releases < 1 + word := by
    rw [hs.releases]
    decide
  have hended := hall _ _ 0 Overflow.third _ 2 1 h1.of_restrict ⟨hs.issued, by decide⟩ (by rfl) g4 hwin
    (by simp [Overflow.third, hs.state])
  cases hs.ended.symm.trans hended

end Thunderbolt.Runtime.Lifecycle
