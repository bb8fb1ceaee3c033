import Thunderbolt.Concurrent.Executor
import Thunderbolt.Runtime.DependencyOrder

/-! The runtime is an executor of tasks that depend on each other.

Of a run of the runtime, the submissions, the calls of bodies and their ends are shown, and the
constructions that throw. A submission needs the tasks that its handles name. Slots, generations,
counters, successor lists and ready queues are how the runtime goes about it: whatever it
shows, `Executor` may show (`refines`). -/
namespace Thunderbolt.Runtime.Lifecycle
open Concurrent

variable {Call : Type} [DecidableEq Call] {cfg : PoolConfig} {a : Act Call} {s s' : State Call}

/-! ### What a step shows -/

/-- The tasks that the handles name. -/
def Named (s : State Call) (dependencies : List TaskHandle) : Set ℕ :=
  {u | ∃ d ∈ dependencies, ∃ e, IssuedAt s d u e}

/-- The construction of the submission has thrown. -/
def thrown (s : State Call) (t : ℕ) : Option (Executor.Event ℕ) :=
  if (s.sub t).stage matches .thrown _ then some (.drop t) else none

def event (s s' : State Call) : Act Call → Option (Executor.Event ℕ)
  | .submit _ dependencies => some (.submit s.submitted (Named s dependencies))
  | .reenter _ => none
  | .step c =>
    match s.pc c with
    | .constructing t _ => thrown s' t
    | .inlining t => some (.start t)
    | .inlined t | .running t _ => some (.finish t)
    | .calling h => (s.slots h.index).function.map .start
    | _ => none

/-- A step, when no slot has been released `2^32` times. -/
def Shows (cfg : PoolConfig) (e : Option (Executor.Event ℕ)) (s s' : State Call) : Prop :=
  ∃ a, Step cfg a s s' ∧ a.Sized ∧ (∀ i, (s'.slots i).releases < word) ∧ e = event s s' a

/-! ### How far a submission is -/

def Submission.status (x : Submission Call) : Executor.Status :=
  match x.stage with
  | .running _ => .running
  | .ended _ | .left _ => .ended
  | .thrown _ => .dropped
  | .retired => if x.invoked = 0 then .dropped else .ended
  | _ => .pending

/-- The submission `t` gets from one status to another, and no other does. -/
structure Moves (s s' : State Call) (t : ℕ) (old new : Executor.Status) : Prop where
  submitted : s'.submitted = s.submitted
  there : t < s.submitted
  before : (s.sub t).status = old
  after : (s'.sub t).status = new
  others : ∀ u ≠ t, s'.sub u = s.sub u

/-- What a step that shows this has done. -/
def Effect (s s' : State Call) : Option (Executor.Event ℕ) → Prop
  | none => s'.submitted = s.submitted ∧ ∀ t < s.submitted, (s'.sub t).status = (s.sub t).status
  | some (.submit t _) => t = s.submitted ∧ s'.submitted = s.submitted + 1 ∧
      (s'.sub t).status = .pending ∧ ∀ u ≠ t, s'.sub u = s.sub u
  | some (.start t) => Moves s s' t .pending .running
  | some (.finish t) => Moves s s' t .running .ended
  | some (.drop t) => Moves s s' t .pending .dropped

omit [DecidableEq Call] in
theorem Effect.silent {e : Option (Executor.Event ℕ)} (he : e = none) (hsubmitted : s'.submitted = s.submitted)
    (hstatus : ∀ t, (s'.sub t).status = (s.sub t).status) : Effect s s' e := by
  subst he
  exact ⟨hsubmitted, fun t _ => hstatus t⟩

omit [DecidableEq Call] in
theorem Effect.drop {e : Option (Executor.Event ℕ)} {t : ℕ} (he : e = some (.drop t))
    (h : Moves s s' t .pending .dropped) : Effect s s' e := by
  subst he
  exact h

omit [DecidableEq Call] in
theorem Moves.of_update {t : ℕ} {old new : Executor.Status} {x : Submission Call}
    (hsub : s'.sub = Function.update s.sub t x) (hsubmitted : s'.submitted = s.submitted)
    (ht : t < s.submitted) (hold : (s.sub t).status = old) (hnew : x.status = new) : Moves s s' t old new where
  submitted := hsubmitted
  there := ht
  before := hold
  after := by rw [hsub, Function.update_self, hnew]
  others u hu := by rw [hsub, Function.update_of_ne hu]

theorem effect (h : Inv cfg s) (hs : Step cfg a s s') : Effect s s' (event s s' a) := by
  have hthere : ∀ {t st}, (s.sub t).stage = st → st ≠ .retired → t < s.submitted := by
    intro t st hst hne
    by_contra hle
    exact hne (hst.symm.trans (h.fresh t (Nat.le_of_not_lt hle)).1)
  have hstage : ∀ {t : ℕ} {x : Submission Call}, x.status = (s.sub t).status →
      ∀ u, (Function.update s.sub t x u).status = (s.sub u).status :=
    fun hx u => Inv.proj_update Submission.status _ hx u
  cases id hs
  case submit hpc | submit_emplace hpc =>
    exact ⟨rfl, rfl, by simp [Submission.enter, Submission.status], fun u hu => by simp [hu]⟩
  case constructThrows c t i hpc =>
    have hst := (h.at_pc hpc).1
    refine .drop (t := t) (by simp [event, hpc, thrown]) ?_
    exact .of_update rfl rfl (hthere hst nofun) (by simp [Submission.status, hst]) rfl
  case constructInlineThrows c t hpc =>
    have hst : (s.sub t).stage = _ := h.at_pc hpc
    refine .drop (t := t) (by simp [event, hpc, thrown]) ?_
    exact .of_update rfl rfl (hthere hst nofun) (by simp [Submission.status, hst]) rfl
  case run_inline c t hpc =>
    have hst : (s.sub t).stage = _ := h.at_pc hpc
    simp only [event, hpc]
    exact .of_update rfl rfl (hthere hst nofun) (by simp [Submission.status, hst]) rfl
  case call c x t hpc hbody =>
    have hst := (h.body hpc hbody).1
    simp only [event, hpc, hbody, Option.map_some]
    exact .of_update rfl rfl (hthere hst nofun) (by simp [Submission.status, hst]) rfl
  case inlineEnds hpc | ends hpc =>
    have hst := (h.at_pc hpc).1
    simp only [event, hpc]
    exact .of_update rfl rfl (hthere hst nofun) (by simp [Submission.status, hst]) rfl
  case create hpc =>
    refine .silent (by simp [event, hpc]) rfl (hstage ?_)
    simp [Submission.status, (h.at_pc hpc).1]
  case construct hpc =>
    refine .silent (by simp [event, hpc, thrown]) rfl (hstage ?_)
    simp [Submission.status, (h.at_pc hpc).1]
  case constructInline t hpc =>
    have hst : (s.sub t).stage = _ := h.at_pc hpc
    exact .silent (by simp [event, hpc, thrown, hst]) rfl fun _ => rfl
  case publish hpc =>
    refine .silent (by simp [event, hpc]) rfl (hstage ?_)
    obtain ⟨hst, _⟩ | hst := (h.at_pc hpc).1 <;> simp [Submission.status, hst]
  case enqueue_ready hpc | storePending hpc | unguardLast hpc _ | unguard hpc _ =>
    refine .silent (by simp [event, hpc]) rfl (hstage ?_)
    simp [Submission.status, (h.at_pc hpc).1]
  case retire t hpc =>
    refine .silent (by simp [event, hpc]) rfl (hstage ?_)
    have hst : (s.sub t).stage = .left _ ∨ (s.sub t).stage = .thrown _ := h.at_pc hpc
    obtain hst | hst := hst
    · have hlog := h.logged t (hthere hst nofun)
      unfold Logged at hlog
      rw [hst] at hlog
      simp [Submission.status, hst, hlog.1]
    · have hlog := h.logged t (hthere hst nofun)
      unfold Logged at hlog
      rw [hst] at hlog
      simp [Submission.status, hst, hlog.1]
  case dequeue c x hpc hx =>
    obtain ⟨t, hst, _, heq⟩ := h.claim_eq c hx
    refine .silent (by simp [event, hpc]) rfl fun u => ?_
    show (s.claim c x u).status = _
    rw [heq]
    exact hstage (by simp [Submission.status, hst]) u
  case complete hpc => exact .silent (by simp [event, hpc]) rfl (hstage rfl)
  case bump c i next hpc =>
    refine .silent (by simp [event, hpc]) rfl ?_
    cases next with
    | dependents t l => exact hstage (by simp [Submission.status, (h.at_pc hpc).1])
    | rethrow t => exact fun _ => rfl
  case subtractLast hpc hone =>
    refine .silent (by simp [event, hpc]) rfl (hstage ?_)
    simp [Submission.status, (h.last hpc hone).1]
  case pass hpc =>
    refine .silent (by simp [event, hpc]) rfl (hstage ?_)
    simp [Submission.status, (h.at_pc hpc).2.1]
  case reenter => exact .silent rfl rfl fun _ => rfl
  all_goals exact .silent (by simp [event, *]) rfl fun _ => rfl

/-! ### Bodies that have ended -/

omit [DecidableEq Call] in
theorem Advance.ended_status {c : Call} {x y : Submission Call} (h : Advance c x y) (hlog : Logged x)
    (hx : x.ended = true → x.status = .ended) (hy : y.ended = true) : y.status = .ended := by
  cases h
  case ends | endsInline => rfl
  case complete => exact hx hy
  case leave => rfl
  case retire hst =>
    obtain hst | hst := hst
    · unfold Logged at hlog
      rw [hst] at hlog
      simp [Submission.status, hlog.1]
    · simp [Submission.status, hst] at hx
      exact absurd hy (by simp [hx])
  case drive hst =>
    obtain ⟨hst, _⟩ | hst | hst | hst := hst <;> simp [Submission.status, hst] at hx <;> simp [hx] at hy
  case call hst => obtain hst | hst := hst <;> simp [Submission.status, hst] at hx <;> simp [hx] at hy
  all_goals simp_all [Submission.status]

theorem ended_status (h : Reachable (sized Call cfg) s) {t : ℕ} (ht : t < s.submitted)
    (hended : (s.sub t).ended = true) : (s.sub t).status = .ended := by
  induction h with
  | initial hi =>
    obtain rfl := hi
    cases ht
  | @step _ s s' h hs ih =>
    by_cases hold : t < s.submitted
    · obtain heq | hadv | ⟨heq, _⟩ := (Inv.reachable h).advance hs.1 t
      · rw [heq] at hended ⊢
        exact ih hold hended
      · exact hadv.ended_status ((Inv.reachable h).logged t hold) (ih hold) hended
      · exact absurd heq hold.ne
    · obtain hsame | ⟨hnew, deps, heq⟩ := Inv.submitted_step hs.1
      · exact absurd (hsame ▸ ht) hold
      · obtain rfl : t = s.submitted := by omega
        rw [heq] at hended
        cases hended

theorem status_ne_absent {Call : Type} (x : Submission Call) : x.status ≠ .absent := by
  unfold Submission.status
  split
  case h_5 => split <;> exact nofun
  all_goals exact nofun

theorem running_of_status {Call : Type} {x : Submission Call} (h : x.status = .running) :
    ∃ c, x.stage = .running c := by
  unfold Submission.status at h
  split at h
  case h_1 c hst => exact ⟨c, hst⟩
  case h_5 => split at h <;> cases h
  all_goals cases h

/-! ### The simulation -/

/-- The runtime, and the executor it is. -/
structure Matches (s : State Call) (x : Executor.State ℕ) : Prop where
  status : ∀ t, x.status t = if t < s.submitted then (s.sub t).status else .absent
  needs : ∀ t < s.submitted, ∀ u ∈ x.needs t, ∃ k d e, Ordered s t k d u e

/-- What a submission shows. -/
theorem event_submit (hs : Step cfg a s s') {t : ℕ} {needs : Set ℕ} (he : event s s' a = some (.submit t needs)) :
    t = s.submitted ∧ ∃ c deps em, needs = Named s deps ∧ s'.pc c = .acquiring t em ∧
      (s'.sub t).dependencies = deps := by
  cases a with
  | submit c deps =>
    obtain ⟨rfl, rfl⟩ : s.submitted = t ∧ Named s deps = needs := by simpa [event] using he
    cases hs
    case submit => exact ⟨rfl, c, deps, false, rfl, by simp, by simp [Submission.enter]⟩
    case submit_emplace => exact ⟨rfl, c, [], true, rfl, by simp, by simp [Submission.enter]⟩
  | reenter c => cases he
  | step c =>
    exfalso
    simp only [event, thrown] at he
    split at he
    case h_1 => split at he <;> cases he
    all_goals simp_all

theorem Ordered.kept {t k u e : ℕ} {d : TaskHandle} (o : Ordered s t k d u e) (h : Reachable (sized Call cfg) s)
    (hs : Step cfg a s s') (hwin : ∀ i, (s'.slots i).releases < word) (ht : t < s.submitted) :
    Ordered s' t k d u e := by
  refine o.step (.reachable h) (.reachable h) (.reachable h) hs ht ?_
  have hlt := (Inv.releases_le hs d.index).trans_lt (hwin d.index)
  omega

namespace Matches
variable {x : Executor.State ℕ}

omit [DecidableEq Call] in
theorem at_submitted (m : Matches s x) {t : ℕ} (ht : t < s.submitted) : x.status t = (s.sub t).status := by
  rw [m.status, if_pos ht]

omit [DecidableEq Call] in
/-- The end of a body is shown. -/
theorem finished {events : List (Executor.Event ℕ)} (m : Matches s x)
    (h : Trace Executor.Step Executor.initial events x) {t : ℕ} (ht : t < s.submitted)
    (hended : (s.sub t).status = .ended) : .finish t ∈ events := by
  rw [(Executor.lawful h).2.finished, m.at_submitted ht, hended]

omit [DecidableEq Call] in
theorem initial : Matches (initial : State Call) Executor.initial where
  status _ := rfl
  needs t ht := absurd ht (Nat.not_lt_zero t)

/-- A task gets on. -/
theorem move (m : Matches s x) (h : Reachable (sized Call cfg) s) (hs : Step cfg a s s')
    (hwin : ∀ i, (s'.slots i).releases < word) {t : ℕ} {old new : Executor.Status}
    (hmove : Moves s s' t old new) : Matches s' (x.mark t new) where
  status u := by
    rcases eq_or_ne u t with rfl | hne
    · simp [Executor.State.mark, hmove.after, hmove.submitted, hmove.there]
    · simp [Executor.State.mark, hne, m.status, hmove.submitted, hmove.others u hne]
  needs u hu v hv := by
    rw [hmove.submitted] at hu
    obtain ⟨k, d, e, o⟩ := m.needs u hu v hv
    exact ⟨k, d, e, o.kept h hs hwin hu⟩

/-- A body starts when those that it needs have ended. -/
theorem started (m : Matches s x) (h : Reachable (sized Call cfg) s) (hs : Step cfg a s s') (hsized : a.Sized)
    (hwin : ∀ i, (s'.slots i).releases < word) {t u : ℕ} (hmove : Moves s s' t .pending .running)
    (hu : u ∈ x.needs t) : x.status u = .ended := by
  obtain ⟨k, d, e, o⟩ := m.needs t hmove.there u hu
  have h' : Reachable (sized Call cfg) s' := h.step ⟨hs, hsized⟩
  have hinv' := Inv.reachable h'
  have husub := (Inv.reachable h).issued_submitted o.issued
  have hcalled : 0 < (s'.sub t).invoked := by
    have hlog := hinv'.logged t (by rw [hmove.submitted]; exact hmove.there)
    obtain ⟨c, hst⟩ := running_of_status hmove.after
    unfold Logged at hlog
    rw [hst] at hlog
    simp only at hlog
    omega
  have hended := (o.kept h hs hwin hmove.there).started hcalled
  have hstatus := ended_status h' (by rw [hmove.submitted]; exact husub) hended
  have hne : u ≠ t := by
    intro heq
    obtain rfl := heq
    cases hstatus.symm.trans hmove.after
  rw [m.at_submitted husub, ← hmove.others u hne, hstatus]

/-- A submission that has just been counted. -/
theorem submitted (m : Matches s x) (h : Reachable (sized Call cfg) s) (hs : Step cfg a s s') (hsized : a.Sized)
    (hwin : ∀ i, (s'.slots i).releases < word) {t : ℕ} {needs : Set ℕ}
    (he : event s s' a = some (.submit t needs)) :
    ∃ x', Matches s' x' ∧ Executor.Step (some (.submit t needs)) x x' := by
  have heff := effect (Inv.reachable h) hs
  rw [he] at heff
  obtain ⟨rfl, hnew, hpending, hothers⟩ := heff
  obtain ⟨-, c, deps, em, rfl, hpc, hdeps⟩ := event_submit hs he
  refine ⟨_, ⟨fun u => ?_, fun u hu v hv => ?_⟩, .submit _ (by rw [m.status, if_neg (lt_irrefl _)]) ?_⟩
  · rcases eq_or_ne u s.submitted with rfl | hne
    · simp [Executor.State.mark, hpending, hnew]
    · have hlt : u < s.submitted + 1 ↔ u < s.submitted := by omega
      simp [Executor.State.mark, hne, m.status, hnew, hothers u hne, hlt]
  · rcases eq_or_ne u s.submitted with rfl | hne
    · obtain ⟨d, hd, e, hx⟩ : v ∈ Named s deps := by simpa [Executor.State.mark] using hv
      obtain ⟨k, hk⟩ := List.mem_iff_getElem?.mp hd
      have hinv' : Inv cfg s' := .reachable (h.step ⟨hs, hsized⟩)
      exact ⟨k, d, e, .of_acquiring hinv' hpc (by rw [hdeps, hk]) (hx.step (.reachable h) hs)⟩
    · obtain ⟨k, d, e, o⟩ := m.needs u (by omega) v (by simpa [Executor.State.mark, hne] using hv)
      exact ⟨k, d, e, o.kept h hs hwin (by omega)⟩
  · intro u hsome
    obtain ⟨d, _, e, hx⟩ := hsome
    have husub := (Inv.reachable h).issued_submitted hx
    rw [m.at_submitted husub]
    exact status_ne_absent _

theorem step (m : Matches s x) (h : Reachable (sized Call cfg) s) {e : Option (Executor.Event ℕ)}
    (hs : Shows cfg e s s') :
    ∃ x', (Reachable (sized Call cfg) s' ∧ Matches s' x') ∧ Trace Executor.Step x e.toList x' := by
  obtain ⟨a, hs, hsized, hwin, rfl⟩ := hs
  have heff := effect (Inv.reachable h) hs
  have h' : Reachable (sized Call cfg) s' := h.step ⟨hs, hsized⟩
  cases he : event s s' a with
  | none =>
    rw [he] at heff
    refine ⟨x, ⟨h', ⟨fun t => ?_, fun t ht u hu => ?_⟩⟩, .nil⟩
    · rw [heff.1, m.status]
      split
      case isTrue ht => exact (heff.2 t ht).symm
      case isFalse => rfl
    · rw [heff.1] at ht
      obtain ⟨k, d, e, o⟩ := m.needs t ht u hu
      exact ⟨k, d, e, o.kept h hs hwin ht⟩
  | some e =>
    rw [he] at heff
    cases e with
    | submit t needs =>
      obtain ⟨x', m', hstep⟩ := m.submitted h hs hsized hwin he
      exact ⟨x', ⟨h', m'⟩, .single hstep⟩
    | start t =>
      have hmove : Moves s s' t .pending .running := heff
      refine ⟨_, ⟨h', m.move h hs hwin hmove⟩, .single (.start ?_ fun u => m.started h hs hsized hwin hmove)⟩
      rw [m.at_submitted hmove.there, hmove.before]
    | finish t =>
      have hmove : Moves s s' t .running .ended := heff
      refine ⟨_, ⟨h', m.move h hs hwin hmove⟩, .single (.finish ?_)⟩
      rw [m.at_submitted hmove.there, hmove.before]
    | drop t =>
      have hmove : Moves s s' t .pending .dropped := heff
      refine ⟨_, ⟨h', m.move h hs hwin hmove⟩, .single (.drop ?_)⟩
      rw [m.at_submitted hmove.there, hmove.before]

end Matches

/-- Every run shows something. -/
theorem shown (h : Reachable (sized Call cfg) s) (hwin : ∀ i, (s.slots i).releases < word) :
    ∃ events, Trace (Shows cfg) initial events s := by
  have htrace : ∃ s₀ events, s₀ = initial ∧ Trace (Shows cfg) s₀ events s := by
    refine h.trace (W := fun s => ∀ i, (s.slots i).releases < word) (fun _ _ _ _ hs hwin i => ?_)
      (fun a _ _ hs hwin => ?_) hwin
    · exact (Inv.releases_le hs.1 i).trans_lt (hwin i)
    · exact ⟨_, a, hs.1, hs.2, hwin, rfl⟩
  obtain ⟨_, events, rfl, htrace⟩ := htrace
  exact ⟨events, htrace⟩

theorem simulated {events : List (Executor.Event ℕ)} (h : Trace (Shows cfg) (initial : State Call) events s) :
    ∃ x, Matches s x ∧ Trace Executor.Step Executor.initial events x := by
  have hsim := h.simulate (R := fun s x => Reachable (sized Call cfg) s ∧ Matches s x)
    (fun e s s' x hx hs => hx.2.step hx.1 hs) ⟨.initial rfl, .initial⟩
  obtain ⟨x, ⟨_, m⟩, htrace⟩ := hsim
  exact ⟨x, m, htrace⟩

/-- **The runtime is an executor of tasks that depend on each other**: while no slot has been
released `2^32` times and dependency lists have fewer than `2^32` entries, what a run shows
an executor may show too. -/
theorem refines {events : List (Executor.Event ℕ)} (h : Trace (Shows cfg) (initial : State Call) events s) :
    (∃ x, Matches s x ∧ Trace Executor.Step Executor.initial events x) ∧ Executor.Lawful events := by
  obtain ⟨x, m, htrace⟩ := simulated h
  exact ⟨⟨x, m, htrace⟩, (Executor.lawful htrace).1⟩

open Pair in
/-- The second of two tasks is registered with the first, and both have run. -/
theorem refines_pair : ∃ events, ∃ s : State Unit, Trace (Shows pool) initial events s ∧ Done s ∧
    .finish 0 ∈ events ∧ .finish 1 ∈ events ∧ Executor.Lawful events := by
  have hkept : Kept (Reachable (sized Unit pool)) := fun h hs hplain => h.step ⟨hs, hplain.sized⟩
  obtain ⟨s₀, h₀, _, _, hruns⟩ := runs (.initial rfl) hkept
  obtain ⟨s, h, hdone⟩ := hruns _ h₀ hkept
  obtain ⟨events, htrace⟩ := shown h hdone.releases
  obtain ⟨⟨x, m, hx⟩, hlawful⟩ := refines htrace
  refine ⟨events, s, htrace, hdone, ?_, ?_, hlawful⟩
  · exact m.finished hx (by simp [hdone.submitted]) (by simp [Submission.status, hdone.retired, hdone.invoked])
  · exact m.finished hx (by simp [hdone.submitted]) (by simp [Submission.status, hdone.retired, hdone.invoked])

end Thunderbolt.Runtime.Lifecycle
