import Mathlib.Logic.Relation
import Thunderbolt.Concurrent.Mutex
import Thunderbolt.Concurrent.Threads

/-! Parking idle workers, and waking one of them.

`park_worker` counts the worker as sleeping, looks for work once more under
`sleep_mutex_`, and waits on `sleep_cv_`. `wake_one_worker`, called once the work
is published, reads the count and, unless it is zero, passes through the mutex
and notifies one waiter, whichever the condition variable picks; there are no
spurious wakeups. The look for work takes several reads: `look` says what the
read at a position gives at the moment it is made. -/
namespace Thunderbolt.Scheduler.Parking
open Concurrent

/-- What one read of the last look for work tells. -/
inductive Verdict (γ : Type*) where
  | next (c : γ)
  | work
  | nothing

/-- Where a worker stands in `park_worker`; `awake` outside it. -/
inductive Sleeper (γ : Type*) where
  | awake
  /-- About to lock `sleep_mutex_`. -/
  | locking
  /-- About to count itself in `sleeping_`. -/
  | registering
  | checkRunning
  /-- `any_work_available`, at position `c`. -/
  | checking (c : γ)
  /-- Found work or the end: about to uncount itself and unlock. -/
  | aborting
  /-- About to release the mutex and block. -/
  | blocking
  | blocked
  /-- Notified, about to lock again. -/
  | notified
  /-- About to uncount itself and unlock. -/
  | leaving

/-- Where a thread stands in `wake_one_worker`; `idle` outside it. -/
inductive Waker where
  | idle
  /-- The work is published; about to read `sleeping_`. -/
  | published
  /-- About to lock and unlock `sleep_mutex_`. -/
  | locking
  /-- About to notify one. -/
  | notifying
  deriving DecidableEq

structure State (Worker Thread γ : Type*) where
  /-- `sleeping_`. -/
  sleeping : ℕ
  /-- The holder of `sleep_mutex_`. -/
  mutex : Option Worker
  /-- `running_`. -/
  running : Bool
  sleeper : Worker → Sleeper γ
  waker : Thread → Waker

/-- Who moves, and for a notification whom it wakes. -/
inductive Act (Worker Thread : Type*) where
  | park (w : Worker)
  | sleeper (w : Worker)
  | wake (t : Thread)
  | waker (t : Thread)
  | notify (t : Thread) (woken : Option Worker)
  | stop
  deriving DecidableEq

variable {Worker Thread γ : Type*} [DecidableEq Worker] [DecidableEq Thread]

namespace State

def sleeperAt (s : State Worker Thread γ) (w : Worker) (p : Sleeper γ) : State Worker Thread γ :=
  {s with sleeper := Function.update s.sleeper w p}

def wakerAt (s : State Worker Thread γ) (t : Thread) (p : Waker) : State Worker Thread γ :=
  {s with waker := Function.update s.waker t p}

end State

/-- One step; `start` is where the look for work begins. -/
inductive Step (look : γ → Verdict γ) (start : γ) :
    Act Worker Thread → State Worker Thread γ → State Worker Thread γ → Prop where
  | park {s w} : s.sleeper w = .awake → Step look start (.park w) s (s.sleeperAt w .locking)
  | lock {s w} : s.sleeper w = .locking → s.mutex = none →
      Step look start (.sleeper w) s ({s with mutex := some w}.sleeperAt w .registering)
  | register {s w} : s.sleeper w = .registering →
      Step look start (.sleeper w) s
        ({s with sleeping := s.sleeping + 1}.sleeperAt w .checkRunning)
  | stopped {s w} : s.sleeper w = .checkRunning → s.running = false →
      Step look start (.sleeper w) s (s.sleeperAt w .aborting)
  | running {s w} : s.sleeper w = .checkRunning → s.running = true →
      Step look start (.sleeper w) s (s.sleeperAt w (.checking start))
  | next {s w c c'} : s.sleeper w = .checking c → look c = .next c' →
      Step look start (.sleeper w) s (s.sleeperAt w (.checking c'))
  | found {s w c} : s.sleeper w = .checking c → look c = .work →
      Step look start (.sleeper w) s (s.sleeperAt w .aborting)
  | nothing {s w c} : s.sleeper w = .checking c → look c = .nothing →
      Step look start (.sleeper w) s (s.sleeperAt w .blocking)
  | abort {s w} : s.sleeper w = .aborting →
      Step look start (.sleeper w) s
        ({s with sleeping := s.sleeping - 1, mutex := none}.sleeperAt w .awake)
  /-- `sleep_cv_.wait` releases the mutex and blocks in one step. -/
  | block {s w} : s.sleeper w = .blocking →
      Step look start (.sleeper w) s ({s with mutex := none}.sleeperAt w .blocked)
  | relock {s w} : s.sleeper w = .notified → s.mutex = none →
      Step look start (.sleeper w) s ({s with mutex := some w}.sleeperAt w .leaving)
  | leave {s w} : s.sleeper w = .leaving →
      Step look start (.sleeper w) s
        ({s with sleeping := s.sleeping - 1, mutex := none}.sleeperAt w .awake)
  | wake {s t} : s.waker t = .idle → Step look start (.wake t) s (s.wakerAt t .published)
  /-- Everyone is busy. -/
  | nobody {s t} : s.waker t = .published → s.sleeping = 0 →
      Step look start (.waker t) s (s.wakerAt t .idle)
  | somebody {s t} : s.waker t = .published → s.sleeping ≠ 0 →
      Step look start (.waker t) s (s.wakerAt t .locking)
  | pass {s t} : s.waker t = .locking → s.mutex = none →
      Step look start (.waker t) s (s.wakerAt t .notifying)
  | notifyNone {s t} : s.waker t = .notifying → (∀ w, s.sleeper w ≠ .blocked) →
      Step look start (.notify t none) s (s.wakerAt t .idle)
  | notifyOne {s t w} : s.waker t = .notifying → s.sleeper w = .blocked →
      Step look start (.notify t (some w)) s ((s.sleeperAt w .notified).wakerAt t .idle)
  /-- The destructor, once `wait_all` returned. -/
  | stop {s} : s.running = true → Step look start .stop s {s with running := false}
  | notifyAll {s} : s.running = false → s.mutex = none →
      Step look start .stop s
        {s with sleeper := fun w => match s.sleeper w with
          | .blocked => .notified
          | p => p}

def initial : State Worker Thread γ where
  sleeping := 0
  mutex := none
  running := true
  sleeper _ := .awake
  waker _ := .idle

variable {look : γ → Verdict γ} {start : γ} {a : Act Worker Thread} {s s' : State Worker Thread γ}
  {w : Worker} {t : Thread}

namespace Sleeper

/-- Counted in `sleeping_`. -/
def registered : Sleeper γ → Bool
  | awake | locking | registering => false
  | _ => true

/-- Inside the critical section of `park_worker`. -/
def holds : Sleeper γ → Bool
  | registering | checkRunning | checking _ | aborting | blocking | leaving => true
  | _ => false

end Sleeper

/-- `sleep_mutex_` has at most one holder among the workers. -/
def Exclusive (s : State Worker Thread γ) : Prop :=
  Concurrent.Exclusive s.mutex fun w => (s.sleeper w).holds

/-- `sleeping_` counts the registered workers. -/
def Counted [Fintype Worker] (s : State Worker Thread γ) : Prop :=
  s.sleeping = count Sleeper.registered s.sleeper

/-- A step of the parking protocol moves one worker, or notifies blocked ones. -/
theorem sleeper_other (hs : Step look start a s s') {v : Worker} (hv : a ≠ .park v)
    (hv' : a ≠ .sleeper v) :
    s'.sleeper v = s.sleeper v ∨ (s.sleeper v = .blocked ∧ s'.sleeper v = .notified) := by
  cases hs
  case notifyOne t w hw hb =>
    rcases eq_or_ne v w with rfl | hne
    · exact .inr ⟨hb, by simp [State.sleeperAt, State.wakerAt]⟩
    · exact .inl (by simp [State.sleeperAt, State.wakerAt, hne])
  case notifyAll =>
    cases hp : s.sleeper v
    case blocked => exact .inr ⟨rfl, by simp [hp]⟩
    all_goals exact .inl (by simp [hp])
  case wake | nobody | somebody | pass | notifyNone | stop => exact .inl rfl
  all_goals
    refine .inl (Function.update_of_ne ?_ _ _)
    intro heq
    obtain rfl := heq
    first | exact hv rfl | exact hv' rfl

/-- Only `park_worker` puts an awake worker to sleep. -/
theorem awake_step (hs : Step look start a s s') (ha : a ≠ .park w) (hw : s.sleeper w = .awake) :
    s'.sleeper w = .awake := by
  rcases eq_or_ne a (.sleeper w) with rfl | hne
  · cases hs <;> simp_all
  · rcases sleeper_other hs ha hne with h | ⟨h, _⟩
    · exact h.trans hw
    · rw [hw] at h
      cases h

/-- An awake worker is next awake still, or about to lock. -/
theorem drowsy_step (hs : Step look start a s s') (hw : s.sleeper w = .awake) :
    s'.sleeper w = .awake ∨ s'.sleeper w = .locking := by
  rcases eq_or_ne a (.park w) with rfl | hne
  · cases hs
    exact .inr (by simp [State.sleeperAt])
  · exact .inl (awake_step hs hne hw)

/-- Other threads' calls of `wake_one_worker` stay where they are. -/
theorem waker_other (hs : Step look start a s s') (ht : a ≠ .wake t) (ht' : a ≠ .waker t)
    (hn : ∀ w, a ≠ .notify t w) : s'.waker t = s.waker t := by
  cases hs
  case wake | nobody | somebody | pass | notifyNone | notifyOne =>
    refine Function.update_of_ne ?_ _ _
    intro heq
    obtain rfl := heq
    first | exact ht rfl | exact ht' rfl | exact hn _ rfl
  all_goals rfl

/-- What a step does to one worker: its own move, or a notification that reaches it. -/
theorem holds_other (hs : Step look start a s s') {v : Worker} (hv : a ≠ .sleeper v)
    (hh : (s'.sleeper v).holds = true) : (s.sleeper v).holds = true := by
  rcases eq_or_ne a (.park v) with rfl | hp
  · cases hs
    simp [State.sleeperAt, Sleeper.holds] at hh
  · rcases sleeper_other hs hp hv with h | ⟨_, h⟩
    · rw [← h]; exact hh
    · rw [h] at hh
      simp [Sleeper.holds] at hh

theorem exclusive_step (h : Exclusive s) (hs : Step look start a s s') : Exclusive s' := by
  by_cases hsleeper : ∃ w, a = .sleeper w
  · obtain ⟨w, rfl⟩ := hsleeper
    refine Concurrent.Exclusive.step (t := w) h (fun v hv => holds_other hs ?_) ?_
    · exact fun hw => hv (Act.sleeper.inj hw).symm
    · cases hs <;> simp_all [State.sleeperAt, Sleeper.holds]
  · have hlock : s'.mutex = s.mutex := by
      cases hs
      case pass | wake | nobody | somebody | park | stop | notifyNone | notifyOne | notifyAll => rfl
      all_goals exact absurd ⟨_, rfl⟩ hsleeper
    intro v hv
    rw [hlock]
    exact h v (holds_other hs (fun hw => hsleeper ⟨v, hw⟩) hv)

section Counting
variable [Fintype Worker]

omit [DecidableEq Worker] [DecidableEq Thread] in
theorem counted_initial : Counted (initial : State Worker Thread γ) :=
  (count_eq_zero.mpr fun _ => rfl).symm

theorem counted_step (h : Counted s) (hs : Step look start a s s') : Counted s' := by
  have hmove := count_update (Sleeper.registered : Sleeper γ → Bool) s.sleeper
  unfold Counted at h ⊢
  cases hs
  case notifyAll =>
    rw [h]
    apply count_congr
    intro v
    cases hp : s.sleeper v <;> simp [hp, Sleeper.registered]
  case wake | nobody | somebody | pass | notifyNone | stop => exact h
  all_goals grind [State.sleeperAt, State.wakerAt, Sleeper.registered]

omit [DecidableEq Worker] [DecidableEq Thread] in
/-- Nobody is counted only when nobody is registered. -/
theorem awake_of_nobody (h : Counted s) (h0 : s.sleeping = 0) (w : Worker) :
    (s.sleeper w).registered = false :=
  count_eq_zero.mp (h.symm.trans h0) w

end Counting

/-! ### A worker that finds nothing blocks -/

/-- Worker `w` at `x`, counted, and inside its critical section. -/
def State.inside (s : State Worker Thread γ) (w : Worker) (x : Sleeper γ) : State Worker Thread γ :=
  {s with sleeping := s.sleeping + 1, mutex := some w, sleeper := Function.update s.sleeper w x}

omit [DecidableEq Thread] in
@[simp] theorem inside_sleeperAt (s : State Worker Thread γ) (w : Worker) (x y : Sleeper γ) :
    (s.inside w x).sleeperAt w y = s.inside w y := by
  simp [State.inside, State.sleeperAt]

omit [DecidableEq Thread] in
@[simp] theorem inside_sleeper (s : State Worker Thread γ) (w : Worker) (x : Sleeper γ) :
    (s.inside w x).sleeper w = x := by
  simp [State.inside]

theorem Step.to {s'' : State Worker Thread γ} (h : Step look start a s s') (heq : s' = s'') :
    Step look start a s s'' := heq ▸ h

/-- From the lock of a free mutex to the wait, when every read of the look goes on to
the next and the last one tells that there is nothing. -/
theorem blocks (hfree : s.mutex = none) (hrun : s.running = true) (hlock : s.sleeper w = .locking)
    {c : γ} (hlooks : Relation.ReflTransGen (fun c c' => look c = .next c') start c)
    (hnothing : look c = .nothing) :
    Relation.ReflTransGen (Step look start (.sleeper w : Act Worker Thread)) s
      {s with sleeping := s.sleeping + 1, sleeper := Function.update s.sleeper w .blocked} := by
  have hin : Step look start (.sleeper w : Act Worker Thread)
      ({s with mutex := some w}.sleeperAt w .registering) (s.inside w .checkRunning) :=
    (Step.register (by simp [State.sleeperAt])).to (by simp [State.sleeperAt, State.inside])
  have hgo : Step look start (.sleeper w : Act Worker Thread) (s.inside w .checkRunning)
      (s.inside w (.checking start)) :=
    (Step.running (inside_sleeper s w _) hrun).to (inside_sleeperAt s w _ _)
  have hlook : Relation.ReflTransGen (Step look start (.sleeper w : Act Worker Thread))
      (s.inside w (.checking start)) (s.inside w (.checking c)) :=
    hlooks.lift (fun c => s.inside w (.checking c)) fun _ _ h =>
      (Step.next (inside_sleeper s w _) h).to (inside_sleeperAt s w _ _)
  have hlast : Step look start (.sleeper w : Act Worker Thread) (s.inside w (.checking c))
      (s.inside w .blocking) :=
    (Step.nothing (inside_sleeper s w _) hnothing).to (inside_sleeperAt s w _ _)
  have hout : Step look start (.sleeper w : Act Worker Thread) (s.inside w .blocking)
      {s with sleeping := s.sleeping + 1, sleeper := Function.update s.sleeper w .blocked} :=
    (Step.block (inside_sleeper s w _)).to (by simp [State.inside, State.sleeperAt, hfree])
  exact (((Relation.ReflTransGen.single (.lock hlock hfree)).tail hin).tail hgo).trans
    ((hlook.tail hlast).tail hout)

end Thunderbolt.Scheduler.Parking
