import Thunderbolt.Runtime.Queries

/-! A body starts after the bodies it depends on have ended.

A dependency is accounted for in one of three ways: its edge is subtracted by the
call that completes the predecessor, `submit_after` finds the predecessor completed
and subtracts it, or, without a slot, `submit_after` waits for it. `Closed` says when
a successor list refuses entries, `Ordered` what each of the ways says of one
dependency. -/
namespace Thunderbolt.Runtime.Lifecycle
open Concurrent

variable {Call : Type} [DecidableEq Call] {cfg : PoolConfig} {a : Act Call} {s s' : State Call}

/-! ### Successor lists -/

/-- The slot a call is about to hand out. -/
def Pc.opened : Pc Call → Option ℕ
  | creating _ i | constructing _ (some i) => some i
  | _ => none

/-- The slot whose successors a call has taken, while its task has it. -/
def Pc.shut : Pc Call → Option ℕ
  | completing _ x _ => some x.index
  | releasing .destroying i (.dependents _ _) | releasing .bumping i (.dependents _ _) => some i
  | _ => none

/-- When a successor list is closed, and when it is empty. -/
structure Closed (s : State Call) : Prop where
  ended : ∀ i t, (s.slots i).place = .held t → (s.slots i).successors.closed = true →
    (s.sub t).ended = true
  opened : ∀ c i, (s.pc c).opened = some i → (s.slots i).successors.closed = false
  shut : ∀ c i, (s.pc c).shut = some i →
    (s.slots i).successors.closed = true ∧ (s.slots i).successors.entries = []

/-- What a step of the call `c` can make of the successor list of slot `i`. -/
inductive ListStep (s s' : State Call) (c : Call) (i : ℕ) : Prop where
  | same : (s'.slots i).successors = (s.slots i).successors → ListStep s s' c i
  | push (t : ℕ) (x : TaskHandle) (k : ℕ) : s.pc c = .adding t x k →
      (s.slots i).successors.closed = false →
      (s'.slots i).successors.closed = false →
      (s.slots i).successors.entries ⊆ (s'.slots i).successors.entries → ListStep s s' c i
  | reopen (t : ℕ) (em : Bool) : s.pc c = .opening t i em → (s.slots i).place = .inHands c →
      (s'.slots i).successors.closed = false → ListStep s s' c i
  | take (t : ℕ) (x : TaskHandle) : s.pc c = .taking t x → (s.slots i).place = .held t →
      (s.sub t).stage = .ended c → (s'.slots i).successors.closed = true →
      (s'.slots i).successors.entries = [] →
      (∀ p ∈ (s.slots i).successors.entries, s'.edge p.2 = .taken c) → ListStep s s' c i
  | reset (next : Next) : s.pc c = .releasing .resetting i next → (s.slots i).place = .inHands c →
      ListStep s s' c i

namespace Inv

theorem listStep (h : Inv cfg s) (hs : Step cfg a s s') (i : ℕ) : ListStep s s' a.call i := by
  have hwrite : ∀ {j : ℕ} {x : Slot Call}, x.successors = (s.slots j).successors →
      (Function.update s.slots j x i).successors = (s.slots i).successors :=
    fun hx => proj_update Slot.successors _ hx i
  cases hs
  case open_successors c t j em hpc =>
    rcases eq_or_ne i j with rfl | hne
    · exact .reopen t em hpc (h.at_pc hpc).2.2.1 (by simp [Successors.reopen])
    · exact .same (by simp [hne])
  case add c t x k d l hpc hd hadd =>
    rcases eq_or_ne i d.index with rfl | hne
    · have heq := Successors.tryAdd_eq (s.slots d.index).successors (s.slots d.index).generation
        d.generation (x, ⟨t, k⟩)
      have hopen : (s.slots d.index).successors.closed = false := by
        rw [hadd] at heq
        simpa using (show _ ∧ _ by simpa using heq.1.symm).1
      unfold Successors.tryAdd at hadd
      split at hadd
      · cases hadd
        exact .push t x k hpc hopen (by simpa using hopen) (by simp [Successors.entries_push])
      · cases hadd
    · exact .same (by simp [hne])
  case take_successors c t x hpc =>
    obtain ⟨hst, hof⟩ := h.at_pc hpc
    rcases eq_or_ne i x.index with rfl | hne
    · exact .take t x hpc (h.place hof (by rw [hst]; trivial)) hst (by simp [Successors.take]) (by simp)
        fun p hp => if_pos (List.mem_map_of_mem hp)
    · exact .same (by simp [hne])
  case reset_successors c j next hpc =>
    have hok : ReleaseOk s c j _ next := h.at_pc hpc
    rcases eq_or_ne i j with rfl | hne
    · refine .reset next hpc ?_
      cases next <;> exact hok.2
    · exact .same (by simp [hne])
  all_goals first | exact .same rfl | exact .same (hwrite (by rfl))

end Inv

namespace Closed

theorem ended_step (z : Closed s) (h : Inv cfg s) (hs : Step cfg a s s') (i t : ℕ)
    (hi : (s'.slots i).place = .held t) (hclosed : (s'.slots i).successors.closed = true) :
    (s'.sub t).ended = true := by
  have hsub : ∀ {u st}, (s.sub u).stage = st → st ≠ .retired → u < s.submitted := by
    intro u st hst hne
    by_contra hle
    exact hne (hst.symm.trans (h.fresh u (Nat.le_of_not_lt hle)).1)
  rcases h.moved_step hs i with ⟨hplace, _⟩ | ⟨_, hplace, _⟩ | ⟨u, hhands, hplace, _, _, _, _, hpc⟩ |
    ⟨u, _, hplace, _⟩ | ⟨_, hplace, _⟩
  · rw [hi] at hplace
    have hhold := (h.held i t hplace.symm).2
    have ht : t < s.submitted := hsub rfl (by intro hst; rw [hst] at hhold; exact hhold)
    cases h.listStep hs i with
    | same heq =>
      rw [heq] at hclosed
      exact h.ended_step hs ht (z.ended i t hplace.symm hclosed)
    | push _ _ _ _ _ hopen _ => cases hclosed.symm.trans hopen
    | reopen _ _ _ hhands _ | reset _ _ hhands => cases hplace.trans hhands
    | take u x _ hu hst _ _ _ =>
      cases hplace.trans hu
      have hlog := h.logged t ht
      unfold Logged at hlog
      rw [hst] at hlog
      exact h.ended_step hs ht hlog.2
  · cases hi.symm.trans hplace
  · exfalso
    have hopen : (s.slots i).successors.closed = false := by
      refine z.opened a.call i ?_
      obtain hpc | hpc := hpc <;> rw [hpc] <;> rfl
    cases h.listStep hs i with
    | same heq => cases hclosed.symm.trans (heq ▸ hopen)
    | push _ _ _ _ _ hopen' _ => cases hclosed.symm.trans hopen'
    | reopen _ _ hpc' _ _ => obtain hpc | hpc := hpc <;> cases hpc.symm.trans hpc'
    | take _ _ hpc' _ _ _ _ _ => obtain hpc | hpc := hpc <;> cases hpc.symm.trans hpc'
    | reset _ hpc' _ => obtain hpc | hpc := hpc <;> cases hpc.symm.trans hpc'
  · cases hi.symm.trans hplace
  · cases hi.symm.trans hplace

/-- A call that is about to hand out a slot has it. -/
theorem opened_hands (h : Inv cfg s) {c : Call} {i : ℕ} (hpc : (s.pc c).opened = some i) :
    (s.slots i).place = .inHands c := by
  cases hp : s.pc c with
  | creating t j =>
    rw [hp] at hpc
    cases hpc
    exact (h.at_pc hp).2.1
  | constructing t o =>
    rw [hp] at hpc
    cases o with
    | none => cases hpc
    | some j =>
      cases hpc
      exact (h.at_pc hp).2.2
  | _ =>
    rw [hp] at hpc
    cases hpc

/-- A call that has taken the successors of a task has the task. -/
theorem shut_held (h : Inv cfg s) {c : Call} {i : ℕ} (hpc : (s.pc c).shut = some i) :
    ∃ t, (s.slots i).place = .held t ∧ (s.sub t).stage = .ended c := by
  cases hp : s.pc c with
  | completing t x l =>
    rw [hp] at hpc
    cases hpc
    obtain ⟨hst, hof⟩ := h.at_pc hp
    exact ⟨t, h.place hof (by rw [hst]; trivial), hst⟩
  | releasing r j next =>
    rw [hp] at hpc
    have hok : ReleaseOk s c j r next := h.at_pc hp
    have hheld : ∀ {t}, (s.sub t).stage = .ended c → (∃ e, (s.sub t).issued = some (j, e)) →
        ∃ t, (s.slots j).place = .held t ∧ (s.sub t).stage = .ended c := by
      intro t hst he
      obtain ⟨e, he⟩ := he
      obtain ⟨_, hplace, _⟩ | ⟨hover, _⟩ := h.issued t j e he
      · exact ⟨t, hplace, hst⟩
      · rw [hst] at hover
        exact hover.elim
    cases r <;> cases next <;> cases hpc <;> exact hheld hok.1 hok.2
  | _ =>
    rw [hp] at hpc
    cases hpc

theorem opened_step (z : Closed s) (h : Inv cfg s) (hs : Step cfg a s s') (c : Call) (i : ℕ)
    (hpc : (s'.pc c).opened = some i) : (s'.slots i).successors.closed = false := by
  rcases eq_or_ne c a.call with rfl | hc
  · cases hs <;> simp only [State.pcAt, State.issue, Act.call, Function.update_self] at hpc
    case open_successors em _ =>
      cases em <;> cases hpc <;> simp [Successors.reopen]
    case create => split at hpc <;> cases hpc
    case exhausted =>
      unfold exhausted at hpc
      split at hpc
      · cases hpc
      · split at hpc <;> cases hpc
    case list next _ => cases next <;> cases hpc
    case answer o _ _ _ _ => cases o <;> cases hpc
    all_goals cases hpc
  · rw [Inv.pc_other hs hc] at hpc
    have hhands := opened_hands h hpc
    have hopen := z.opened c i hpc
    cases h.listStep hs i with
    | same heq => rw [heq, hopen]
    | push _ _ _ _ _ hopen' _ | reopen _ _ _ _ hopen' => exact hopen'
    | take _ _ _ hheld _ _ _ _ => cases hhands.symm.trans hheld
    | reset _ _ hhands' =>
      cases hhands.symm.trans hhands'
      exact absurd rfl hc

theorem shut_step (z : Closed s) (h : Inv cfg s) (hs : Step cfg a s s') (c : Call) (i : ℕ)
    (hpc : (s'.pc c).shut = some i) :
    (s'.slots i).successors.closed = true ∧ (s'.slots i).successors.entries = [] := by
  rcases eq_or_ne c a.call with rfl | hc
  · have hold := z.shut a.call i
    cases hs <;> simp only [State.pcAt, State.issue, Act.call, Function.update_self] at hpc hold
    case take_successors =>
      cases hpc
      exact ⟨by simp [Successors.take], by simp⟩
    case complete hpc' =>
      cases hpc
      simpa using hold (by rw [hpc']; rfl)
    case destroy next hpc' | reenter next hpc' =>
      cases next <;> cases hpc
      simpa using hold (by rw [hpc']; rfl)
    case bump next _ | reset_successors next _ | storeFree next _ => cases next <;> cases hpc
    case create => split at hpc <;> cases hpc
    case exhausted =>
      unfold exhausted at hpc
      split at hpc
      · cases hpc
      · split at hpc <;> cases hpc
    case open_successors => split at hpc <;> cases hpc
    case list next _ => cases next <;> cases hpc
    case answer o _ _ _ _ => cases o <;> cases hpc
    all_goals cases hpc
  · rw [Inv.pc_other hs hc] at hpc
    have hclosed := z.shut c i hpc
    obtain ⟨t, hplace, hst⟩ := shut_held h hpc
    cases h.listStep hs i with
    | same heq => rwa [heq]
    | push _ _ _ _ hopen _ _ => cases hclosed.1.symm.trans hopen
    | reopen _ _ _ hhands _ | reset _ _ hhands => cases hplace.symm.trans hhands
    | take u _ _ hu hst' _ _ _ =>
      cases hplace.symm.trans hu
      cases hst.symm.trans hst'
      exact absurd rfl hc

omit [DecidableEq Call] in
theorem initial : Closed (initial : State Call) where
  ended _ _ := nofun
  opened _ _ := nofun
  shut _ _ := nofun

theorem reachable (h : Reachable (sized Call cfg) s) : Closed s := by
  induction h with
  | initial hs =>
    subst hs
    exact initial
  | step h hs ih =>
    have hinv := Inv.reachable h
    exact ⟨ih.ended_step hinv hs.1, ih.opened_step hinv hs.1, ih.shut_step hinv hs.1⟩

end Closed

/-! ### One dependency -/

/-- The dependency that `submit_after`, without a slot, waits for, and its submission. -/
def Pc.awaits : Pc Call → Option (ℕ × ℕ)
  | awaiting t k => some (t, k)
  | asking o _ _ | reading o _ _ | rechecking o _ _ _ | answered o _ _ _ => o
  | _ => none

/-- The handle a query is about. -/
def Pc.asked : Pc Call → Option TaskHandle
  | asking _ x _ | reading _ x _ | rechecking _ x _ _ | answered _ x _ _ => some x
  | _ => none

/-- Ready to run, or about to. -/
def Stage.Ready : Stage Call → Prop
  | driven _ | queued | claimed _ => True
  | _ => False

/-- What is known of dependency `k` of `t`, which is `d`, the handle of `u`. -/
structure Ordered (s : State Call) (t k : ℕ) (d : TaskHandle) (u e : ℕ) : Prop where
  dependency : (s.sub t).dependencies[k]? = some d
  issued : IssuedAt s d u e
  listed : ∀ i, s.edge ⟨t, k⟩ = .listed i → i = d.index ∧ (s.slots i).place = .held u ∧
    ⟨t, k⟩ ∈ (s.slots i).successors.entries.map Prod.snd
  taken : ∀ c, s.edge ⟨t, k⟩ = .taken c → (s.sub u).ended = true
  settled : s.edge ⟨t, k⟩ = .settled → (s.sub u).ended = true
  refused : ∀ c x, s.pc c = .refused t x k → (s.sub u).ended = true
  awaited : ∀ c j, (s.pc c).awaits = some (t, j) → k < j → (s.sub u).ended = true
  asked : ∀ c x, (s.pc c).awaits = some (t, k) → (s.pc c).asked = some x → x = d
  answer : ∀ c, (s.pc c).awaits = some (t, k) → Answer s d u e (s.pc c)
  inlining : ∀ c, s.pc c = .inlining t → (s.sub u).ended = true
  constructing : ∀ c, s.pc c ≠ .constructing t none
  ready : (s.sub t).stage.Ready → (s.sub u).ended = true
  started : 0 < (s.sub t).invoked → (s.sub u).ended = true

namespace Inv

/-- Who has a handle has been submitted. -/
theorem issued_submitted (h : Inv cfg s) {x : TaskHandle} {t e : ℕ} (hx : IssuedAt s x t e) :
    t < s.submitted := by
  by_contra hle
  have hnone := (h.fresh t (Nat.le_of_not_lt hle)).2.1
  rw [hx.1] at hnone
  cases hnone

/-- A call that waits for a dependency has the submission. -/
theorem awaits_entering (h : Inv cfg s) {c : Call} {t j : ℕ} (hc : (s.pc c).awaits = some (t, j)) :
    (s.sub t).stage = .entering c := by
  cases hp : s.pc c with
  | awaiting t' j' =>
    rw [hp] at hc
    cases hc
    exact h.at_pc hp
  | asking o x b | reading o x b | rechecking o x b st | answered o x b res =>
    rw [hp] at hc
    cases hc
    exact h.at_pc hp
  | _ =>
    rw [hp] at hc
    cases hc

/-- The body of a task whose slot another has, or that `Completed` says has ended. -/
theorem held_of_generation (h : Inv cfg s) {x : TaskHandle} {t e : ℕ} (hx : IssuedAt s x t e)
    (hwin : (s.slots x.index).releases < e + word)
    (hgen : (s.slots x.index).generation = x.generation) : (s.slots x.index).place = .held t := by
  have heq := (hx.generation h hwin).mp hgen
  obtain ⟨_, hplace, _⟩ | ⟨_, hlt⟩ := h.issued t x.index e hx.1
  · exact hplace
  · omega

/-- How a body comes to be called. -/
theorem called (h : Inv cfg s) (hs : Step cfg a s s') {t : ℕ} (ht : t < s.submitted)
    (hcalled : (s'.sub t).invoked ≠ (s.sub t).invoked) :
    (s.sub t).stage = .claimed a.call ∨ s.pc a.call = .inlining t := by
  have hne : s'.sub t ≠ s.sub t := fun heq => hcalled (by rw [heq])
  cases hs
  case run_inline hpc =>
    obtain ⟨rfl, _⟩ := hit (by rfl) hne
    exact .inr hpc
  case call hpc hbody =>
    obtain ⟨rfl, _⟩ := hit (by rfl) hne
    exact .inl (h.body hpc hbody).1
  case submit | submit_emplace => exact absurd (Function.update_of_ne ht.ne _ _) hne
  case dequeue c x _ hx =>
    obtain ⟨u, _, _, heq⟩ := h.claim_eq c hx
    refine absurd ?_ hcalled
    show (s.claim c x t).invoked = _
    rw [heq]
    exact proj_update Submission.invoked _ (by rfl) t
  case bump next _ =>
    cases next with
    | dependents u l => exact absurd (proj_update Submission.invoked _ (by rfl) t) hcalled
    | rethrow u => exact absurd rfl hcalled
  all_goals first | exact absurd rfl hcalled
                  | exact absurd (proj_update Submission.invoked _ (by rfl) t) hcalled

end Inv

namespace Advance
variable {c : Call} {x y : Submission Call}

omit [DecidableEq Call]

/-- How a task becomes ready. -/
theorem ready (h : Advance c x y) (hy : y.stage.Ready) : x.stage.Ready ∨
    x.stage.Waits ∧ ¬y.stage.Waits ∨ x.stage = .created c ∧ x.dependencies = [] := by
  cases h
  case drive hst =>
    obtain hst | hst | hst | hst := hst
    · exact .inr (.inr hst)
    · exact .inr (.inl ⟨by rw [hst]; trivial, id⟩)
    · exact .inr (.inl ⟨by rw [hst]; trivial, id⟩)
    · exact .inl (by rw [hst]; trivial)
  case queue hst | claim hst => exact .inl (by rw [hst]; trivial)
  case complete => exact .inl hy
  all_goals exact hy.elim

end Advance

namespace Ordered
variable {t k u e : ℕ} {d : TaskHandle}

theorem ended_mono (o : Ordered s t k d u e) (h : Inv cfg s) (hs : Step cfg a s s')
    (hu : (s.sub u).ended = true) : (s'.sub u).ended = true :=
  h.ended_step hs (h.issued_submitted o.issued) hu

theorem listed_step (o : Ordered s t k d u e) (h : Inv cfg s) (z : Closed s) (hs : Step cfg a s s')
    (hwin : (s.slots d.index).releases < e + word) (i : ℕ) (hi : s'.edge ⟨t, k⟩ = .listed i) :
    i = d.index ∧ (s'.slots i).place = .held u ∧
      ⟨t, k⟩ ∈ (s'.slots i).successors.entries.map Prod.snd := by
  cases h.edgeStep hs ⟨t, k⟩ with
  | same heq =>
    rw [hi] at heq
    obtain ⟨hindex, hplace, hmem⟩ := o.listed i heq.symm
    have hne : (s.slots i).successors.entries ≠ [] := by
      intro hnil
      rw [hnil] at hmem
      cases hmem
    refine ⟨hindex, ?_, ?_⟩
    · rcases h.moved_step hs i with ⟨hplace', _⟩ | ⟨hfree, _⟩ | ⟨_, hhands, _⟩ |
        ⟨v, hv, _, _, _, _, l, hpc⟩ | ⟨hhands, _⟩
      · rw [hplace', hplace]
      · cases hplace.symm.trans hfree
      · cases hplace.symm.trans hhands
      · exact absurd (z.shut a.call i (by rw [hpc]; rfl)).2 hne
      · cases hplace.symm.trans hhands
    · cases h.listStep hs i with
      | same hlist => rwa [hlist]
      | push _ _ _ _ _ _ hsub => exact List.map_subset _ hsub hmem
      | reopen _ _ _ hhands _ | reset _ _ hhands => cases hplace.symm.trans hhands
      | take _ _ _ _ _ _ _ htaken =>
        obtain ⟨p, hp, hpe⟩ := List.mem_map.mp hmem
        have hedge := htaken p hp
        rw [hpe, hi] at hedge
        cases hedge
  | list x d' _ hnew _ hd _ hgen hentries hplace =>
    obtain rfl : d' = d := Option.some.inj (hd.symm.trans o.dependency)
    cases hi.symm.trans hnew
    refine ⟨rfl, ?_, ?_⟩
    · rw [hplace]
      exact h.held_of_generation o.issued hwin hgen
    · rw [hentries]
      simp
  | take _ _ _ hnew _ _ _ | settle _ _ hnew _ _ | subtract _ hnew _ => cases hi.symm.trans hnew

theorem taken_step (o : Ordered s t k d u e) (h : Inv cfg s) (hs : Step cfg a s s') (c : Call)
    (hi : s'.edge ⟨t, k⟩ = .taken c) : (s'.sub u).ended = true := by
  apply o.ended_mono h hs
  cases h.edgeStep hs ⟨t, k⟩ with
  | same heq => exact o.taken c (by rw [← heq, hi])
  | take i v hlisted _ _ hst hplace =>
    obtain ⟨_, hheld, _⟩ := o.listed i hlisted
    cases hplace.symm.trans hheld
    have hlog := h.logged _ (h.issued_submitted o.issued)
    unfold Logged at hlog
    rw [hst] at hlog
    exact hlog.2
  | list _ _ _ hnew _ _ _ _ _ _ | settle _ _ hnew _ _ | subtract _ hnew _ => cases hi.symm.trans hnew

theorem settled_step (o : Ordered s t k d u e) (h : Inv cfg s) (hs : Step cfg a s s')
    (hi : s'.edge ⟨t, k⟩ = .settled) : (s'.sub u).ended = true := by
  apply o.ended_mono h hs
  cases h.edgeStep hs ⟨t, k⟩ with
  | same heq => exact o.settled (by rw [← heq, hi])
  | settle x _ _ _ hpc => exact o.refused _ x hpc
  | subtract htaken _ _ => exact o.taken _ htaken
  | list _ _ _ hnew _ _ _ _ _ _ | take _ _ _ hnew _ _ _ => cases hi.symm.trans hnew

theorem refused_step (o : Ordered s t k d u e) (h : Inv cfg s) (r : Recorded cfg s) (z : Closed s)
    (hs : Step cfg a s s') (hwin : (s.slots d.index).releases < e + word) (c : Call) (x : TaskHandle)
    (hpc : s'.pc c = .refused t x k) : (s'.sub u).ended = true := by
  apply o.ended_mono h hs
  rcases eq_or_ne c a.call with rfl | hc
  · cases hs <;> simp only [State.pcAt, State.issue, Act.call, Function.update_self] at hpc
    case stale d' _ hd hstale =>
      cases hpc
      obtain rfl : d' = d := Option.some.inj (hd.symm.trans o.dependency)
      exact (r.finished u (o.issued.stale h r hwin hstale)).2
    case refuse d' l _ hd hadd =>
      cases hpc
      obtain rfl : d' = d := Option.some.inj (hd.symm.trans o.dependency)
      have heq := (Successors.tryAdd_eq (s.slots d'.index).successors (s.slots d'.index).generation
        d'.generation (x, ⟨t, k⟩)).1
      rw [hadd] at heq
      by_cases hgen : (s.slots d'.index).generation = d'.generation
      · have hclosed : (s.slots d'.index).successors.closed = true := by simpa [hgen] using heq
        exact z.ended _ u (h.held_of_generation o.issued hwin hgen) hclosed
      · have hgone := mt (o.issued.generation h hwin).mpr hgen
        have hle := o.issued.le h
        exact (r.finished u (o.issued.outlived h r (by omega))).2
    case create => split at hpc <;> cases hpc
    case exhausted =>
      unfold exhausted at hpc
      split at hpc
      · cases hpc
      · split at hpc <;> cases hpc
    case open_successors => split at hpc <;> cases hpc
    case list next _ => cases next <;> cases hpc
    case answer o' _ _ _ _ => cases o' <;> cases hpc
    all_goals cases hpc
  · rw [Inv.pc_other hs hc] at hpc
    exact o.refused c x hpc

omit [DecidableEq Call] in
/-- A submission with dependencies does not go the way of one without. -/
theorem nonempty (o : Ordered s t k d u e) : (s.sub t).dependencies ≠ [] := by
  intro hnil
  have hd := o.dependency
  rw [hnil] at hd
  cases hd

/-- Waiting for dependency `j` begins at the first, and goes on when a query answers `true`. -/
theorem awaits_inv (hs : Step cfg a s s') {j : ℕ} (hpc : (s'.pc a.call).awaits = some (t, j)) :
    j = 0 ∨ (s.pc a.call).awaits = some (t, j) ∨
      ∃ i x b, j = i + 1 ∧ s.pc a.call = .answered (some (t, i)) x b true := by
  cases hs <;> simp only [State.pcAt, State.issue, Act.call, Function.update_self] at hpc ⊢
  case exhausted =>
    unfold exhausted at hpc
    split at hpc
    · cases hpc
    · split at hpc
      · cases hpc
      · cases hpc
        exact .inl rfl
  case answer o' x b res hpc' =>
    cases o' with
    | none => cases hpc
    | some p =>
      cases res <;> cases hpc
      · exact .inr (.inl (by rw [hpc']; rfl))
      · exact .inr (.inr ⟨_, x, b, rfl, hpc'⟩)
  case await hpc' _ | askStale hpc' _ | askFound hpc' _ | recheckStale hpc' _ | recheck hpc' _ =>
    exact .inr (.inl (by rw [hpc']; exact hpc))
  case read hpc' => exact .inr (.inl (by rw [hpc']; exact hpc))
  case create => split at hpc <;> cases hpc
  case open_successors => split at hpc <;> cases hpc
  case list next _ => cases next <;> cases hpc
  all_goals cases hpc

theorem awaited_step (o : Ordered s t k d u e) (h : Inv cfg s) (r : Recorded cfg s)
    (hs : Step cfg a s s') (c : Call) (j : ℕ) (hpc : (s'.pc c).awaits = some (t, j)) (hj : k < j) :
    (s'.sub u).ended = true := by
  apply o.ended_mono h hs
  rcases eq_or_ne c a.call with rfl | hc
  · obtain rfl | hold | ⟨i, x, b, rfl, hold⟩ := awaits_inv hs hpc
    · omega
    · exact o.awaited _ j hold hj
    · rcases Nat.lt_succ_iff_lt_or_eq.mp hj with hlt | rfl
      · exact o.awaited a.call i (by rw [hold]; rfl) hlt
      · have hx := o.asked a.call x (by rw [hold]; rfl) (by rw [hold]; rfl)
        have hans := o.answer a.call (by rw [hold]; rfl)
        rw [hold] at hans
        exact (r.finished u ((hans hx).1 rfl)).2
  · rw [Inv.pc_other hs hc] at hpc
    exact o.awaited c j hpc hj

theorem asked_step (o : Ordered s t k d u e) (hs : Step cfg a s s') (c : Call) (x : TaskHandle)
    (hpc : (s'.pc c).awaits = some (t, k)) (hx : (s'.pc c).asked = some x) : x = d := by
  rcases eq_or_ne c a.call with rfl | hc
  · have hold := o.asked a.call x
    cases hs <;> simp only [State.pcAt, State.issue, Act.call, Function.update_self] at hpc hx hold
    case await hpc' hd =>
      cases hpc
      cases hx
      exact Option.some.inj (hd.symm.trans o.dependency)
    case askStale hpc' _ | askFound hpc' _ | recheckStale hpc' _ | recheck hpc' _ =>
      rw [hpc'] at hold
      exact hold hpc hx
    case read hpc' =>
      rw [hpc'] at hold
      exact hold hpc hx
    case exhausted =>
      unfold exhausted at hx
      split at hx
      · cases hx
      · split at hx <;> cases hx
    case answer o' _ _ _ _ => cases o' <;> cases hx
    case create => split at hx <;> cases hx
    case open_successors => split at hx <;> cases hx
    case list next _ => cases next <;> cases hx
    all_goals cases hpc
  · rw [Inv.pc_other hs hc] at hpc hx
    exact o.asked c x hpc hx

theorem answer_step (o : Ordered s t k d u e) (h : Inv cfg s) (r : Recorded cfg s)
    (hs : Step cfg a s s') (hwin : (s.slots d.index).releases < e + word) (c : Call)
    (hpc : (s'.pc c).awaits = some (t, k)) : Answer s' d u e (s'.pc c) := by
  by_cases hold : (s.pc c).awaits = some (t, k)
  · exact o.issued.answer_step h r hs hwin c (o.answer c hold)
  · have hc : c = a.call := by
      by_contra hc
      rw [Inv.pc_other hs hc] at hpc
      exact hold hpc
    subst hc
    -- A query begins where nothing has been read.
    cases hs <;> simp only [State.pcAt, State.issue, Act.call, Function.update_self] at hpc hold ⊢
    case askStale hpc' _ | recheckStale hpc' _ | recheck hpc' _ =>
      rw [hpc'] at hold
      exact absurd hpc hold
    case read hpc' =>
      rw [hpc'] at hold
      exact absurd hpc hold
    case exhausted =>
      unfold exhausted
      split
      · trivial
      · split <;> trivial
    case answer o' _ _ _ _ => cases o' <;> trivial
    case create => split at hpc <;> cases hpc
    case open_successors => split at hpc <;> cases hpc
    case list next _ => cases next <;> cases hpc
    all_goals trivial

theorem inlining_step (o : Ordered s t k d u e) (h : Inv cfg s) (hs : Step cfg a s s') (c : Call)
    (hpc : s'.pc c = .inlining t) : (s'.sub u).ended = true := by
  apply o.ended_mono h hs
  rcases eq_or_ne c a.call with rfl | hc
  · cases hs <;> simp only [State.pcAt, State.issue, Act.call, Function.update_self] at hpc
    case constructInline hpc' =>
      cases hpc
      exact absurd hpc' (o.constructing _)
    case awaited hpc' =>
      cases hpc
      have hlt := (List.getElem?_eq_some_iff.mp o.dependency).1
      exact o.awaited _ _ (by rw [hpc']; rfl) hlt
    case exhausted =>
      unfold exhausted at hpc
      split at hpc
      · cases hpc
      · split at hpc
        case isTrue hnil =>
          cases hpc
          exact absurd hnil o.nonempty
        case isFalse => cases hpc
    case create => split at hpc <;> cases hpc
    case open_successors => split at hpc <;> cases hpc
    case list next _ => cases next <;> cases hpc
    case answer o' _ _ _ _ => cases o' <;> cases hpc
    all_goals cases hpc
  · rw [Inv.pc_other hs hc] at hpc
    exact o.inlining c hpc

theorem constructing_step (o : Ordered s t k d u e) (h : Inv cfg s) (hs : Step cfg a s s') (c : Call) :
    s'.pc c ≠ .constructing t none := by
  intro hpc
  rcases eq_or_ne c a.call with rfl | hc
  · cases hs <;> simp only [State.pcAt, State.issue, Act.call, Function.update_self] at hpc
    case exhausted em hpc' =>
      unfold exhausted at hpc
      split at hpc
      case isTrue hem =>
        cases hpc
        exact o.nonempty ((h.at_pc hpc').2 hem)
      case isFalse => split at hpc <;> cases hpc
    case create => split at hpc <;> cases hpc
    case open_successors => split at hpc <;> cases hpc
    case list next _ => cases next <;> cases hpc
    case answer o' _ _ _ _ => cases o' <;> cases hpc
    all_goals cases hpc
  · rw [Inv.pc_other hs hc] at hpc
    exact o.constructing c hpc

theorem ready_step (o : Ordered s t k d u e) (h : Inv cfg s) (hs : Step cfg a s s')
    (hready : (s'.sub t).stage.Ready) : (s'.sub u).ended = true := by
  obtain heq | hadv | ⟨_, _, deps, _, heq⟩ := h.advance hs t
  · rw [heq] at hready
    exact o.ended_mono h hs (o.ready hready)
  · obtain hready | ⟨hw, hstop⟩ | ⟨_, hnil⟩ := hadv.ready hready
    · exact o.ended_mono h hs (o.ready hready)
    · have hlt := (List.getElem?_eq_some_iff.mp o.dependency).1
      rw [← hadv.dependencies] at hlt
      exact o.settled_step h hs (Inv.openEdges_eq_zero.mp (h.stops hs hw hstop).2 k hlt)
    · exact absurd hnil o.nonempty
  · rw [heq] at hready
    exact hready.elim

theorem started_step (o : Ordered s t k d u e) (h : Inv cfg s) (hs : Step cfg a s s')
    (ht : t < s.submitted) (hstarted : 0 < (s'.sub t).invoked) : (s'.sub u).ended = true := by
  apply o.ended_mono h hs
  by_cases heq : (s'.sub t).invoked = (s.sub t).invoked
  · exact o.started (by omega)
  · obtain hst | hpc := h.called hs ht heq
    · exact o.ready (by rw [hst]; trivial)
    · exact o.inlining _ hpc

theorem step (o : Ordered s t k d u e) (h : Inv cfg s) (r : Recorded cfg s) (z : Closed s)
    (hs : Step cfg a s s') (ht : t < s.submitted) (hwin : (s.slots d.index).releases < e + word) :
    Ordered s' t k d u e where
  dependency := by
    rw [h.dependencies_step hs ht]
    exact o.dependency
  issued := o.issued.step h hs
  listed := o.listed_step h z hs hwin
  taken := o.taken_step h hs
  settled := o.settled_step h hs
  refused := o.refused_step h r z hs hwin
  awaited := o.awaited_step h r hs
  asked := o.asked_step hs
  answer := o.answer_step h r hs hwin
  inlining := o.inlining_step h hs
  constructing := o.constructing_step h hs
  ready := o.ready_step h hs
  started := o.started_step h hs ht

/-- A submission that has just been counted. -/
theorem of_acquiring (h : Inv cfg s) {c : Call} {em : Bool} (hpc : s.pc c = .acquiring t em)
    (hd : (s.sub t).dependencies[k]? = some d) (hx : IssuedAt s d u e) : Ordered s t k d u e := by
  have hst : (s.sub t).stage = .entering c := (h.at_pc hpc).1
  have hedge := h.early t (by rw [hst]; trivial) k
  -- Another call has not got the submission.
  have hother : ∀ {c'}, (s.sub t).stage = .entering c' → s.pc c' = .acquiring t em := by
    intro c' hst'
    cases hst.symm.trans hst'
    exact hpc
  have hawaits : ∀ {c' j}, (s.pc c').awaits ≠ some (t, j) := by
    intro c' j ha
    have hpc' := hother (h.awaits_entering ha)
    rw [hpc'] at ha
    cases ha
  refine ⟨hd, hx, ?_, ?_, ?_, ?_, ?_, ?_, ?_, ?_, ?_, ?_, ?_⟩
  · intro i hi
    cases hedge.symm.trans hi
  · intro c' hi
    cases hedge.symm.trans hi
  · intro hi
    cases hedge.symm.trans hi
  · intro c' x hp
    cases hst.symm.trans (h.at_pc hp).1
  · intro c' j ha
    exact absurd ha hawaits
  · intro c' x ha
    exact absurd ha hawaits
  · intro c' ha
    exact absurd ha hawaits
  · intro c' hp
    cases (hother (h.at_pc hp)).symm.trans hp
  · intro c' hp
    cases (hother (h.at_pc hp)).symm.trans hp
  · intro hready
    rw [hst] at hready
    exact hready.elim
  · intro hpos
    have ht : t < s.submitted := by
      by_contra hle
      cases hst.symm.trans (h.fresh t (Nat.le_of_not_lt hle)).1
    have hlog := h.logged t ht
    unfold Logged at hlog
    rw [hst] at hlog
    simp only at hlog
    omega

end Ordered

/-! ### The whole protocol -/

/-- The handle of a task that keeps its slot is found. -/
theorem Inv.resolves (h : Inv cfg s) {x : TaskHandle} {t : ℕ} (hof : Of s x t)
    (hst : (s.sub t).stage.Holding) : s.Resolves cfg x := by
  have hplace := h.place hof hst
  obtain ⟨e, he, hg⟩ := hof
  rw [(h.held x.index t hplace).1] at he
  cases he
  have hlt := h.capacity x.index (by rw [hplace]; exact nofun)
  refine ⟨?_, hlt, by rw [h.generation, hg]⟩
  have hfits := cfg.fits
  simp only [TaskHandle.valid, bne_iff_ne]
  omega

theorem Inv.taken_carried (h : Inv cfg s) (hs : Step cfg a s s') (hplain : ∀ c, a ≠ .reenter c)
    (hcarried : ∀ c e, s.edge e = .taken c → e ∈ (s.pc c).entries.map Prod.snd) (c : Call) (e : Edge)
    (he : s'.edge e = .taken c) : e ∈ (s'.pc c).entries.map Prod.snd := by
  rcases eq_or_ne c a.call with rfl | hc
  · have hold : ∀ {p}, s.pc a.call = p → s.edge e = .taken a.call → e ∈ p.entries.map Prod.snd := by
      intro p hp hedge
      rw [← hp]
      exact hcarried a.call e hedge
    have hnone : ∀ {p}, s.pc a.call = p → p.entries = [] → s.edge e ≠ .taken a.call := by
      intro p hp hnil hedge
      have hmem := hold hp hedge
      rw [hnil] at hmem
      cases hmem
    cases id hs
    case take_successors c t x hpc =>
      have he : (if e ∈ (s.slots x.index).successors.entries.map Prod.snd then EdgeState.taken c
        else s.edge e) = .taken c := he
      split at he
      case isTrue hmem => simpa [Pc.entries] using hmem
      case isFalse => exact absurd he (hnone hpc rfl)
    case add c t x k _ _ hpc _ _ | settle c t x k hpc =>
      rcases eq_or_ne e ⟨t, k⟩ with rfl | hne
      · simp at he
      · exact absurd (by simpa [hne] using he) (hnone hpc rfl)
    case subtract c t d e' rest hpc _ | subtractLast c t d e' rest hpc _ =>
      rcases eq_or_ne e e' with rfl | hne
      · simp at he
      · simpa [Pc.entries, hne] using hold hpc (by simpa [hne] using he)
    case dependentStale c t d e' rest hpc hstale =>
      have hmem := hold hpc he
      have htaken := h.taken c
      rw [hpc] at htaken
      obtain rfl | hmem := List.mem_cons.mp hmem
      · -- A task that waits has its slot.
        have hedge : s.edge e = .taken c := he
        have hw := (h.waits e (by simp [hedge]) (by simp [hedge])).1
        exact absurd (h.resolves (htaken.of (d, e) (List.mem_cons_self ..)) hw.holding) hstale
      · simpa [Pc.entries] using hmem
    case reenter => exact absurd rfl (hplain _)
    case destroy next hpc | bump next hpc | reset_successors next hpc | storeFree next hpc |
        list next hpc =>
      cases next <;> simpa [Pc.entries, Next.pc] using hold hpc he
    case complete hpc | drive hpc | pass hpc => simpa [Pc.entries] using hold hpc he
    case dependent hpc _ => simpa [Pc.entries] using hold hpc he
    case submit hpc | submit_emplace hpc | exhausted hpc | open_successors hpc | create hpc |
        construct hpc | constructInline hpc | constructThrows hpc | constructInlineThrows hpc |
        publish hpc | enqueue_ready hpc | storeWaiting hpc | storePending hpc | awaited hpc |
        run_inline hpc | inlineEnds hpc | retire hpc | exchange hpc | ends hpc | looped hpc | ask hpc |
        read hpc | answer hpc =>
      exact absurd he (hnone hpc rfl)
    case acquire hpc _ | await hpc _ | unguardLast hpc _ | unguard hpc _ | dequeue hpc _ |
        execute hpc _ | executeStale hpc _ | call hpc _ | askStale hpc _ | askFound hpc _ |
        recheckStale hpc _ | recheck hpc _ =>
      exact absurd he (hnone hpc rfl)
    case stale hpc _ _ | lookup hpc _ _ | refuse hpc _ _ => exact absurd he (hnone hpc rfl)
  · rw [pc_other hs hc]
    cases h.edgeStep hs e with
    | same heq => exact hcarried c e (by rw [← heq, he])
    | take _ _ _ hnew _ _ _ =>
      cases he.symm.trans hnew
      exact absurd rfl hc
    | list _ _ _ hnew _ _ _ _ _ _ | settle _ _ hnew _ _ | subtract _ hnew _ => cases he.symm.trans hnew

/-- Accepted by the predecessor, and not yet subtracted. -/
def EdgeState.accepted : EdgeState Call → Bool
  | listed _ | taken _ => true
  | _ => false

theorem openEdges_split (s : State Call) (t : ℕ) : openEdges s t =
    Nat.count (fun k => s.edge ⟨t, k⟩ = .unprocessed) (s.sub t).dependencies.length +
      Nat.count (fun k => (s.edge ⟨t, k⟩).accepted = true) (s.sub t).dependencies.length := by
  refine natCount_split (fun k => ?_) fun k hun => ?_
  · cases s.edge ⟨t, k⟩ <;> simp [EdgeState.accepted]
  · rw [hun]
    simp [EdgeState.accepted]

/-- From the state in which a submission has just been counted. -/
theorem ordered_run {s₀ : State Call} {c : Call} {t : ℕ} {em : Bool} (h₀ : Reachable (sized Call cfg) s₀)
    (hsub : s₀.pc c = .acquiring t em) (h : Reachable ((sized Call cfg).startingAt s₀) s)
    (hwin : ∀ i, (s.slots i).releases < word) :
    t < s.submitted ∧ (s.sub t).dependencies = (s₀.sub t).dependencies ∧
      ∀ k d u e, (s₀.sub t).dependencies[k]? = some d → IssuedAt s₀ d u e → Ordered s t k d u e := by
  induction h with
  | initial heq =>
    rw [heq]
    have hinv := Inv.reachable h₀
    refine ⟨?_, rfl, fun k d u e hd hx => .of_acquiring hinv hsub hd hx⟩
    by_contra hle
    cases (hinv.at_pc hsub).1.symm.trans (hinv.fresh t (Nat.le_of_not_lt hle)).1
  | step h hs ih =>
    have hmono := Inv.releases_le hs.1
    obtain ⟨ht, hdeps, hord⟩ := ih fun i => (hmono i).trans_lt (hwin i)
    have hreach := h₀.trans h
    have hinv := Inv.reachable hreach
    have hle := Inv.submitted_step hs.1
    refine ⟨by omega, (hinv.dependencies_step hs.1 ht).trans hdeps, fun k d u e hd hx => ?_⟩
    refine (hord k d u e hd hx).step hinv (.reachable hreach) (.reachable hreach) hs.1 ht ?_
    have hlt := (hmono d.index).trans_lt (hwin d.index)
    omega

/-- Slots the pool does not have are never released. -/
theorem releases_beyond (h : Reachable (sized Call cfg) s) (i : ℕ) (hi : cfg.capacity ≤ i) :
    (s.slots i).releases = 0 := by
  induction h with
  | initial hs =>
    subst hs
    rfl
  | step h hs ih =>
    obtain ⟨_, heq⟩ | ⟨⟨next, hpc⟩, _⟩ := Inv.releases_step hs.1 i
    · rw [heq, ih]
    · have hinv := Inv.reachable h
      have hlt := hinv.capacity i (by obtain hplace | ⟨t, hplace⟩ := hinv.releasing_place hpc <;>
        rw [hplace] <;> exact nofun)
      omega

theorem length_run (h : Reachable (plain Call cfg) s) (t : ℕ) :
    (s.sub t).dependencies.length < word - 1 := by
  induction h with
  | initial hs =>
    subst hs
    show 0 < word - 1
    decide
  | step h hs ih =>
    have hinv := Inv.reachable (h.restrict_mono fun _ _ => Act.Plain.sized)
    obtain heq | hadv | ⟨_, _, deps, ha, heq⟩ := hinv.advance hs.1 t
    · rwa [heq]
    · rwa [hadv.dependencies]
    · rw [heq]
      have hplain := hs.2
      rw [ha] at hplain
      exact hplain

theorem taken_run (h : Reachable (plain Call cfg) s) (c : Call) (e : Edge)
    (he : s.edge e = .taken c) : e ∈ (s.pc c).entries.map Prod.snd := by
  induction h generalizing c e with
  | initial hs =>
    subst hs
    cases he
  | step h hs ih =>
    have hinv := Inv.reachable (h.restrict_mono fun _ _ => Act.Plain.sized)
    exact hinv.taken_carried hs.1 hs.2.ne_reenter ih c e he

/-- **A body is called only after the bodies its dependency list named when it was
submitted have ended. The counter of a waiting task is its guard, its unprocessed edges
and its accepted ones; an accepted edge is in the list of its predecessor, or with the
call that took that list.** -/
theorem dependency_protocol {s₀ : State Call} {c : Call} {t : ℕ} {em : Bool}
    (h₀ : Reachable (plain Call cfg) s₀) (hsub : s₀.pc c = .acquiring t em)
    (h : Reachable ((plain Call cfg).startingAt s₀) s) (hwin : ∀ i, (s.slots i).releases < word) :
    (∀ d ∈ (s.sub t).dependencies, ∀ u e, IssuedAt s₀ d u e → 0 < (s.sub t).invoked →
      (s.sub u).ended = true) ∧
    ((s.sub t).stage.Waits → ∀ i, (s.slots i).place = .held t →
      (s.slots i).pending_dependencies = (s.sub t).stage.guard +
        Nat.count (fun k => s.edge ⟨t, k⟩ = .unprocessed) (s.sub t).dependencies.length +
        Nat.count (fun k => (s.edge ⟨t, k⟩).accepted = true) (s.sub t).dependencies.length) ∧
    (∀ k i, s.edge ⟨t, k⟩ = .listed i → ∀ d u e, (s.sub t).dependencies[k]? = some d →
      IssuedAt s₀ d u e → (s.slots i).place = .held u ∧
        ⟨t, k⟩ ∈ (s.slots i).successors.entries.map Prod.snd) ∧
    ∀ k c, s.edge ⟨t, k⟩ = .taken c → ⟨t, k⟩ ∈ (s.pc c).entries.map Prod.snd := by
  have hsized := h₀.restrict_mono fun _ _ => Act.Plain.sized
  have hrun : Reachable ((sized Call cfg).startingAt s₀) s := by
    induction h with
    | initial heq => exact .initial heq
    | step _ hs ih =>
      have hmono := Inv.releases_le hs.1
      exact (ih fun i => (hmono i).trans_lt (hwin i)).step ⟨hs.1, hs.2.sized⟩
  obtain ⟨_, hdeps, hord⟩ := ordered_run hsized hsub hrun hwin
  have hreach := h₀.trans h
  have hinv := Inv.reachable (hsized.trans hrun)
  refine ⟨fun d hd u e hx hstarted => ?_, fun hw i hi => ?_, fun k i hi d u e hd hx => ?_, fun k c => ?_⟩
  · obtain ⟨k, hk⟩ := List.mem_iff_getElem?.mp hd
    rw [hdeps] at hk
    exact (hord k d u e hk hx).started hstarted
  · have hlen := length_run hreach t
    have hopen := Inv.openEdges_le s t
    have hguard : (s.sub t).stage.guard ≤ 1 := by cases (s.sub t).stage <;> simp [Stage.guard]
    rw [hinv.pending i t hi hw, Nat.mod_eq_of_lt (by omega), openEdges_split, Nat.add_assoc]
  · rw [hdeps] at hd
    exact ((hord k d u e hd hx).listed i hi).2
  · exact taken_run hreach c ⟨t, k⟩

open Pair in
/-- The second of two tasks is registered with the first, and both have run. -/
theorem dependency_protocol_pair : ∃ s₀ s : State Unit, Reachable (plain Unit pool) s₀ ∧
    s₀.pc () = .acquiring 1 false ∧ IssuedAt s₀ first 0 0 ∧ Reachable ((plain Unit pool).startingAt s₀) s ∧
      Done s ∧ (s.sub 0).ended = true := by
  obtain ⟨s₀, h₀, hpc, hissued, hruns⟩ := runs (P := Reachable (plain Unit pool)) (.initial rfl)
    fun h hs hplain => h.step ⟨hs, hplain⟩
  obtain ⟨s, h, hdone⟩ := hruns (Reachable ((plain Unit pool).startingAt s₀)) (.initial rfl)
    fun h hs hplain => h.step ⟨hs, hplain⟩
  have hended := (dependency_protocol h₀ hpc h hdone.releases).1 first (by simp [hdone.dependencies]) 0 0
    ⟨hissued, rfl⟩ (by rw [hdone.invoked.2]; exact Nat.one_pos)
  exact ⟨s₀, s, h₀, hpc, ⟨hissued, rfl⟩, h, hdone, hended⟩

end Thunderbolt.Runtime.Lifecycle
