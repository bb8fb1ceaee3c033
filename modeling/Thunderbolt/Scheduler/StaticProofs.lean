import Thunderbolt.Scheduler.Static

/-! When a task in an inbox is not stranded.

A worker past the look at its own inbox (`Past`) counts on the thread that pushes
there next: that thread finds it registered, waits for it to block, and notifies
one worker. Whether that is the worker in question is up to the condition
variable (`Aimed`). -/
namespace Thunderbolt.Scheduler.Static
open Concurrent Executor

variable {n : ℕ} {External : Type} [DecidableEq External] {a : Act n External}
  {s s' : State n External}

/-- Worker `w` has looked at its own inbox for the last time before it blocks. -/
def Past (w : Fin n) : Parking.Sleeper ℕ → Prop
  | .checking j => (w : ℕ) < j
  | .blocking | .blocked => True
  | _ => False

/-- Between a push on the inbox of `w` and the notification that follows; once past
the mutex, only while `w` is blocked. -/
def Coming (s : State n External) (w : Fin n) (t : Fin n ⊕ External) : Prop :=
  s.target t = some w ∧ match s.park.waker t with
    | .published | .locking => True
    | .notifying => s.park.sleeper w = .blocked
    | .idle => False

/-- A notification that follows a push on the inbox of a blocked worker wakes that
worker. -/
def Aimed : Act n External → State n External → Prop
  | .park (.notify t v), s => ∀ w, s.target t = some w → s.park.sleeper w = .blocked → v = some w
  | _, _ => True

/-- A worker past its own inbox, if that is not empty, has a push's notification coming. -/
def Served (s : State n External) : Prop :=
  ∀ w, (s.inbox w).total ≠ 0 → Past w (s.park.sleeper w) → ∃ t, Coming s w t

/-- The parking protocol's own invariants, here. -/
structure Parked (s : State n External) : Prop where
  exclusive : Parking.Exclusive s.park
  counted : Parking.Counted s.park

/-- Every step either leaves the parking protocol alone or is one of its steps. -/
theorem park_step (hs : Step a s s') :
    s'.park = s.park ∨ ∃ b, Parking.Step (look s) 0 b s.park s'.park := by
  cases hs
  case park w spins p _ _ _ hp => exact .inr ⟨_, hp⟩
  case push t x p _ hp => exact .inr ⟨_, hp⟩
  case parking b p _ _ hp => exact .inr ⟨_, hp⟩
  all_goals exact .inl rfl

theorem parked_step (h : Parked s) (hs : Step a s s') : Parked s' := by
  rcases park_step hs with hp | ⟨b, hp⟩
  · exact ⟨hp ▸ h.exclusive, hp ▸ h.counted⟩
  · exact ⟨Parking.exclusive_step h.exclusive hp, Parking.counted_step h.counted hp⟩

/-- A worker gets past its own inbox by reading it empty; once past, it only goes
on towards blocking, or is notified. -/
theorem past_step {p : Parking.State (Fin n) (Fin n ⊕ External) ℕ}
    {b : Parking.Act (Fin n) (Fin n ⊕ External)} (hs : Parking.Step (look s) 0 b s.park p)
    {w : Fin n} (hw : (s.inbox w).total ≠ 0) (hp : Past w (p.sleeper w)) :
    Past w (s.park.sleeper w) ∧ (s.park.sleeper w = .blocked → p.sleeper w = .blocked) := by
  have hmiss : ∀ {j : ℕ} {c : ℕ}, look s j = .next c → (w : ℕ) < c → (w : ℕ) < j := by
    intro j c hlook hc
    unfold look at hlook
    split at hlook
    case isTrue hj =>
      split at hlook
      · cases hlook
      case isFalse hempty =>
        obtain rfl : j + 1 = c := by simpa using hlook
        rcases Nat.lt_succ_iff_lt_or_eq.mp hc with hlt | heq
        · exact hlt
        · have : w = ⟨j, hj⟩ := Fin.ext heq
          subst this
          omega
    case isFalse => cases hlook
  have hlast : ∀ {j : ℕ}, look s j = .nothing → (w : ℕ) < j := by
    intro j hlook
    unfold look at hlook
    split at hlook
    · split at hlook <;> cases hlook
    · have := w.isLt
      omega
  rcases eq_or_ne b (.sleeper w) with rfl | hne
  · cases hs
    case next c c' hlook hc =>
      simp only [Parking.State.sleeperAt, Function.update_self, Past] at hp
      simp [hc, Past, hmiss hlook hp]
    case nothing c hlook hc => simp [hc, Past, hlast hlook]
    all_goals simp_all [Parking.State.sleeperAt, Past]
  · rcases eq_or_ne b (.park w) with rfl | hne'
    · cases hs
      simp [Parking.State.sleeperAt, Past] at hp
    · rcases Parking.sleeper_other hs hne' hne with h | ⟨_, h⟩
      · rw [h] at hp ⊢
        exact ⟨hp, id⟩
      · simp [h, Past] at hp

/-- A thread whose notification is coming keeps it so, until the worker is notified. -/
theorem coming_step (hk : Parked s) {p : Parking.State (Fin n) (Fin n ⊕ External) ℕ}
    {b : Parking.Act (Fin n) (Fin n ⊕ External)} (hs : Parking.Step (look s) 0 b s.park p)
    (ha : Aimed (.park b) s) (hb : ∀ t, b ≠ .wake t) {w : Fin n}
    (hw : Past w (s.park.sleeper w)) (hp : Past w (p.sleeper w))
    (hstay : s.park.sleeper w = .blocked → p.sleeper w = .blocked) {t : Fin n ⊕ External}
    (ht : Coming s w t) : Coming {s with park := p} w t := by
  obtain ⟨htarget, hwaker⟩ := ht
  refine ⟨htarget, ?_⟩
  have hreg : (s.park.sleeper w).registered = true := by
    cases hc : s.park.sleeper w <;> simp_all [Past, Parking.Sleeper.registered]
  by_cases hmove : b = .waker t ∨ ∃ v, b = .notify t v
  · -- The thread's own step in `wake_one_worker`.
    rcases hmove with rfl | ⟨v, rfl⟩
    · cases hs
      case nobody h0 hpc =>
        have := Parking.awake_of_nobody hk.counted h0 w
        rw [hreg] at this
        cases this
      case somebody h0 hpc => simp [Parking.State.wakerAt]
      case pass hfree hpc =>
        have hblocked : s.park.sleeper w = .blocked := by
          cases hc : s.park.sleeper w <;> simp_all [Past]
          all_goals
            have := hk.exclusive w (by simp [hc, Parking.Sleeper.holds])
            simp_all
        simpa [Parking.State.wakerAt] using hblocked
    · cases hs
      case notifyNone hnone hpc =>
        simp only [hpc] at hwaker
        exact absurd hwaker (hnone w)
      case notifyOne v hv hpc =>
        simp only [hpc] at hwaker
        obtain rfl : v = w := Option.some.inj (ha w htarget hwaker)
        simp [Parking.State.sleeperAt, Parking.State.wakerAt, Past] at hp
  · have hsame : p.waker t = s.park.waker t :=
      Parking.waker_other hs (hb t) (fun h => hmove (.inl h)) fun v h => hmove (.inr ⟨v, h⟩)
    show match p.waker t with
      | .published | .locking => True
      | .notifying => p.sleeper w = .blocked
      | .idle => False
    rw [hsame]
    cases hc : s.park.waker t <;> simp_all

omit [DecidableEq External] in
/-- Taking from an inbox leaves no more in any. -/
theorem total_popped {v w : Fin n} {h : TaskHandle} {r : TaskPriority} {q : ReadyQueues}
    (hpop : (s.inbox v).pop false = some (h, r, q))
    (hw : (Function.update s.inbox v q w).total ≠ 0) : (s.inbox w).total ≠ 0 := by
  rcases eq_or_ne w v with rfl | hne
  · rw [ReadyQueues.total_pop hpop]
    exact Nat.succ_ne_zero _
  · rwa [Function.update_of_ne hne] at hw

theorem served_step (hk : Parked s) (h : Served s) (ha : Aimed a s) (hs : Step a s s') :
    Served s' := by
  intro w hw hp
  cases hs
  case pop v spins g r q _ hpop => exact h w (total_popped hpop hw) hp
  case help v g r q _ _ hpop => exact h w (total_popped hpop hw) hp
  case park v spins p _ _ _ hpark =>
    obtain ⟨hpast, hstay⟩ := past_step hpark hw hp
    obtain ⟨t, ht⟩ := h w hw hpast
    exact ⟨t, coming_step hk hpark trivial (by simp) hpast hp hstay ht⟩
  case push t x p _ hpark =>
    obtain ⟨hpast, _⟩ : Past w (s.park.sleeper w) ∧ True := by
      cases hpark
      exact ⟨hp, trivial⟩
    cases hpark
    case wake hidle =>
    rcases eq_or_ne w x.target with rfl | hne
    · exact ⟨t, by simp [Coming, Parking.State.wakerAt]⟩
    · obtain ⟨u, htarget, hwaker⟩ := h w (by simpa [hne] using hw) hpast
      have hut : u ≠ t := by
        intro heq
        obtain rfl := heq
        simp [hidle] at hwaker
      refine ⟨u, ?_⟩
      simpa [Coming, Parking.State.wakerAt, hut, htarget] using hwaker
  case parking b p _ hb hpark =>
    obtain ⟨hpast, hstay⟩ := past_step hpark hw hp
    obtain ⟨t, ht⟩ := h w hw hpast
    exact ⟨t, coming_step hk hpark ha hb hpast hp hstay ht⟩
  all_goals exact h w hw hp

/-! ### Workers that find nothing -/

/-- A notification wakes the worker it is for. -/
abbrev aimed (n : ℕ) (External : Type) [DecidableEq External] : System (State n External) (Act n External) :=
  (system n External).restrict Aimed

/-- Missing `m` times, a worker comes back to the head of its loop. -/
theorem spin_run {w : Fin n} (m : ℕ) {k : ℕ} (h : Reachable (aimed n External) s)
    (hw : s.work w = .looking k) (hawake : s.park.sleeper w = .awake)
    (hrun : s.park.running = true) (hempty : (s.inbox w).pop false = none)
    (hm : k + m < kSpinsBeforePark) :
    Reachable (aimed n External) (s.workAt w (.looking (k + m))) := by
  induction m with
  | zero =>
    have hsame : s.workAt w (.looking (k + 0)) = s := by
      simp [State.workAt, ← hw]
    rw [hsame]
    exact h
  | succ m ih =>
    have hloop : Step (.work w) (s.workAt w (.looking (k + m)))
        ((s.workAt w (.looking (k + m))).workAt w (.popping (k + m))) :=
      .loop (by simp [State.workAt]) hawake hrun
    have hspin : Step (.work w) ((s.workAt w (.looking (k + m))).workAt w (.popping (k + m)))
        (((s.workAt w (.looking (k + m))).workAt w (.popping (k + m))).workAt w
          (.looking (k + m + 1))) :=
      .spin (by simp [State.workAt]) hempty hm
    have hr := (ih (by omega)).step (l := Act.work w) ⟨hloop, trivial⟩
    have hr := hr.step (l := Act.work w) ⟨hspin, trivial⟩
    simpa [State.workAt, Nat.add_assoc] using hr

omit [DecidableEq External] in
/-- The inboxes are empty: the look for work goes from the first to the end. -/
theorem looks_empty (hempty : ∀ v, s.inbox v = .empty) :
    Relation.ReflTransGen (fun c c' => look s c = .next c') 0 n ∧ look s n = .nothing := by
  have hnext : ∀ j < n, look s j = .next (j + 1) := by
    intro j hj
    simp [look, hj, hempty, ReadyQueues.total, ReadyQueues.empty, scan]
  refine ⟨?_, by simp [look]⟩
  have hupto : ∀ j ≤ n, Relation.ReflTransGen (fun c c' => look s c = .next c') 0 j := by
    intro j hj
    induction j with
    | zero => exact .refl
    | succ j ih => exact (ih (by omega)).tail (hnext j hj)
  exact hupto n le_rfl

/-- Steps of one parking worker are steps of the whole. -/
theorem parking_run {w : Fin n} {p : Parking.State (Fin n) (Fin n ⊕ External) ℕ}
    (h : Reachable (aimed n External) s)
    (hp : Relation.ReflTransGen (Parking.Step (look s) 0 (.sleeper w)) s.park p) :
    Reachable (aimed n External) {s with park := p} := by
  induction hp with
  | refl => exact h
  | tail _ hs ih => exact ih.step (l := Act.park (.sleeper w)) ⟨.parking (by simp) (by simp) hs, trivial⟩

/-- A worker that misses often enough goes to park. -/
theorem miss_run {w : Fin n} (h : Reachable (aimed n External) s) (hw : s.work w = .looking 0)
    (hawake : s.park.sleeper w = .awake) (hrun : s.park.running = true)
    (hempty : (s.inbox w).pop false = none) :
    Reachable (aimed n External) {s with park := s.park.sleeperAt w .locking} := by
  have hspun := spin_run 63 h hw hawake hrun hempty (by decide)
  have hloop : Step (.work w) (s.workAt w (.looking (0 + 63)))
      ((s.workAt w (.looking (0 + 63))).workAt w (.popping (0 + 63))) :=
    .loop (by simp [State.workAt]) hawake hrun
  have hpopping : ((s.workAt w (.looking (0 + 63))).workAt w (.popping (0 + 63))).work w =
      .popping 63 := by simp [State.workAt]
  have hpark := Step.park hpopping hempty (by decide) (.park hawake)
  have hr := (hspun.step (l := Act.work w) ⟨hloop, trivial⟩).step (l := Act.work w) ⟨hpark, trivial⟩
  simpa [State.workAt, ← hw] using hr

/-- A worker that finds every inbox empty blocks. -/
theorem block_run {w : Fin n} (h : Reachable (aimed n External) s) (hw : s.work w = .looking 0)
    (hawake : s.park.sleeper w = .awake) (hrun : s.park.running = true)
    (hfree : s.park.mutex = none) (hempty : ∀ v, s.inbox v = .empty) :
    Reachable (aimed n External)
      {s with
        park := {s.park with
          sleeping := s.park.sleeping + 1, sleeper := Function.update s.park.sleeper w .blocked}} := by
  have hmiss := miss_run h hw hawake hrun (by rw [hempty]; rfl)
  obtain ⟨hlooks, hnothing⟩ := looks_empty (s := {s with park := s.park.sleeperAt w .locking}) hempty
  have hblocks := Parking.blocks
    (s := s.park.sleeperAt w .locking) (w := w) hfree hrun (by simp [Parking.State.sleeperAt])
    hlooks hnothing
  have hr := parking_run hmiss hblocks
  simpa [Parking.State.sleeperAt] using hr

/-- Two workers blocked, nothing submitted yet. -/
theorem both_blocked : ∃ s : State 2 (Fin 1), Reachable (aimed 2 (Fin 1)) s ∧
    (∀ w, s.park.sleeper w = .blocked) ∧ (∀ t, s.park.waker t = .idle) ∧
    s.park.sleeping = 2 ∧ s.park.mutex = none ∧ s.cursor = 0 ∧ (∀ t, s.submission t = none) ∧
    (∀ t, s.target t = none) ∧ ∀ w, s.inbox w = .empty := by
  have h : Reachable (aimed 2 (Fin 1)) initial := .initial rfl
  have h := block_run (w := 0) h rfl rfl rfl rfl fun _ => rfl
  have h := block_run (w := 1) h rfl rfl rfl rfl fun _ => rfl
  exact ⟨_, h, Fin.forall_fin_two.mpr ⟨rfl, rfl⟩, fun _ => rfl, rfl, rfl, rfl, fun _ => rfl,
    fun _ => rfl, fun _ => rfl⟩

/-! ### Over runs, and against one run -/

theorem served_run (h : Reachable ((system n External).restrict Aimed) s) : Parked s ∧ Served s := by
  refine h.invariant (P := fun s => Parked s ∧ Served s) ?_ ?_
  · intro _ hinit
    obtain rfl : _ = initial := hinit
    refine ⟨⟨?_, Parking.counted_initial⟩, ?_⟩
    · intro w hw
      cases hw
    · intro w hw
      exact absurd rfl hw
  · intro a s s' _ ⟨hk, hserved⟩ ⟨hs, ha⟩
    exact ⟨parked_step hk hs, served_step hk hserved ha hs⟩

/-- A task in the inbox of a blocked worker, with no thread left between its push and
its notification. -/
def Stranded (s : State n External) : Prop :=
  ∃ w, (s.inbox w).total ≠ 0 ∧ s.park.sleeper w = .blocked ∧
    ∀ t, s.target t = some w → s.park.waker t = .idle

/-- **No stranded task in the static mode**, on every run in which a notification
that follows a push on the inbox of a blocked worker wakes that worker. -/
theorem static_not_stranded (h : Reachable ((system n External).restrict Aimed) s) :
    ¬Stranded s := by
  intro hsome
  obtain ⟨w, hw, hblocked, hidle⟩ := hsome
  obtain ⟨t, htarget, hwaker⟩ := (served_run h).2 w hw (by rw [hblocked]; trivial)
  simp [hidle t htarget] at hwaker

/-- Two workers blocked. The first submission has woken the worker it is for; the second, for the other
worker, is about to. -/
theorem static_not_stranded_aimed : ∃ s : State 2 (Fin 1), Reachable ((system 2 (Fin 1)).restrict Aimed) s ∧
    (∀ w, (s.inbox w).total = 1) ∧ s.park.sleeper 0 = .notified ∧ s.park.sleeper 1 = .blocked ∧
      ¬Stranded s := by
  obtain ⟨s, h, hblocked, hidle, hsleeping, hfree, hcursor, hnew, htarget, hempty⟩ := both_blocked
  have h := h.step (l := Act.submit (.inr 0))
    ⟨.submit ⟨0, 0⟩ .Normal 0 trivial ⟨hnew _, hidle _⟩ (by simp [hcursor]), trivial⟩
  have h := h.step (l := Act.submit (.inr 0)) ⟨.push (x := ⟨0, ⟨0, 0⟩, .Normal⟩) (by simp) (.wake (hidle _)), trivial⟩
  have h := h.step (l := Act.park (.waker (.inr 0))) ⟨.parking (by simp) (by simp)
    (.somebody (by simp [Parking.State.wakerAt]) (by simp [hsleeping, Parking.State.wakerAt])), trivial⟩
  have h := h.step (l := Act.park (.waker (.inr 0)))
    ⟨.parking (by simp) (by simp) (.pass (by simp [Parking.State.wakerAt]) hfree), trivial⟩
  have h := h.step (l := Act.park (.notify (.inr 0) (some 0))) ⟨.parking (by simp) (by simp)
    (.notifyOne (by simp [Parking.State.wakerAt]) (hblocked 0)), by simp [Aimed]⟩
  have h := h.step (l := Act.submit (.inr 0)) ⟨.submit ⟨1, 0⟩ .Normal 1 trivial ⟨by simp, by simp [Parking.State.wakerAt]⟩
    (by simp [hcursor, word]), trivial⟩
  have h := h.step (l := Act.submit (.inr 0))
    ⟨.push (x := ⟨1, ⟨1, 0⟩, .Normal⟩) (by simp) (.wake (by simp [Parking.State.wakerAt])), trivial⟩
  have hnone : ReadyQueues.empty.total = 0 := rfl
  refine ⟨_, h, Fin.forall_fin_two.mpr ⟨?_, ?_⟩, ?_, ?_, static_not_stranded h⟩
  · simp [hempty, ReadyQueues.total_push, hnone]
  · simp [hempty, ReadyQueues.total_push, hnone]
  · simp [Parking.State.wakerAt, Parking.State.sleeperAt]
  · simp [Parking.State.wakerAt, Parking.State.sleeperAt, hblocked]

/-- One submission goes to the inbox of worker 0, and its notification to worker 1. -/
theorem submit_run {s : State 2 (Fin 1)} (h : Reachable (system 2 (Fin 1)) s)
    (hblocked : ∀ w, s.park.sleeper w = .blocked) (hidle : ∀ t, s.park.waker t = .idle)
    (hsleeping : s.park.sleeping = 2) (hfree : s.park.mutex = none) (hcursor : s.cursor = 0)
    (hnew : ∀ t, s.submission t = none) (htarget : ∀ t, s.target t = none) :
    ∃ s : State 2 (Fin 1), Reachable (system 2 (Fin 1)) s ∧ Stranded s := by
  have h := h.step (l := Act.submit (.inr 0))
    (.submit ⟨0, 0⟩ .Normal 0 trivial ⟨hnew _, hidle _⟩ (by simp [hcursor]))
  have h := h.step (l := Act.submit (.inr 0))
    (.push (x := ⟨0, ⟨0, 0⟩, .Normal⟩) (by simp) (.wake (hidle _)))
  have h := h.step (l := Act.park (.waker (.inr 0)))
    (.parking (by simp) (by simp)
      (.somebody (by simp [Parking.State.wakerAt]) (by simp [hsleeping, Parking.State.wakerAt])))
  have h := h.step (l := Act.park (.waker (.inr 0)))
    (.parking (by simp) (by simp) (.pass (by simp [Parking.State.wakerAt]) hfree))
  have h := h.step (l := Act.park (.notify (.inr 0) (some 1)))
    (.parking (by simp) (by simp) (.notifyOne (by simp [Parking.State.wakerAt]) (hblocked 1)))
  refine ⟨_, h, 0, ?_, ?_, ?_⟩
  · simp [ReadyQueues.total_push]
  · simp [Parking.State.wakerAt, Parking.State.sleeperAt, hblocked]
  · intro t ht
    rcases eq_or_ne t (.inr 0) with rfl | hne
    · simp [Parking.State.wakerAt]
    · simp [hne, htarget] at ht

/-- Waking the wrong worker leaves the task where only the right one takes it. -/
theorem static_stranded :
    ¬∀ s : State 2 (Fin 1), Reachable (system 2 (Fin 1)) s → ¬Stranded s := by
  intro hall
  obtain ⟨s, h, hblocked, hidle, hsleeping, hfree, hcursor, hnew, htarget, _⟩ := both_blocked
  obtain ⟨s', h', hs'⟩ := submit_run h.of_restrict hblocked hidle hsleeping hfree hcursor hnew htarget
  exact hall s' h' hs'

end Thunderbolt.Scheduler.Static
