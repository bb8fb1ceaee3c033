import Thunderbolt.Concurrent.Bell
import Thunderbolt.Scheduler.Standard

/-! `StandardRuntime` leaves no task lying, and no worker behind.

While a worker sleeps, there is somebody on the way for every queued task (`Served`): a worker that will
look before it sleeps, or a caller about to notify. A worker goes to sleep with the mutex in hand and the
queue empty, a push comes with a notification, and a pop with a worker that will look again. -/
namespace Thunderbolt.Scheduler.Standard
open Concurrent Executor

variable {Worker Caller : Type*} [DecidableEq Worker] [DecidableEq Caller] {s s' s₀ s₁ : State Worker Caller}
  {a : Act Worker Caller} {w : Worker} {c : Caller}

namespace Work

/-- Holds `queue_mutex_`. -/
def holds : Work → Bool
  | counting | asking | blocking | deciding | leaving => true
  | _ => false

/-- Will look at the queue before it sleeps. -/
def seeking : Work → Bool
  | testing | locking | woken | counting | deciding => true
  | _ => false

/-- Has found the queue empty, and not unlocked since. -/
def idle : Work → Bool
  | asking | blocking | leaving => true
  | _ => false

end Work

def Call.notifies : Call → Bool
  | notifying => true
  | _ => false

/-- The mutex is held by who is in the critical section. -/
def Exclusive (s : State Worker Caller) : Prop := ∀ w, s.mutex = some w ↔ (s.work w).holds = true

omit [DecidableEq Worker] [DecidableEq Caller] in
theorem Exclusive.of_work {p : Work} (h : Exclusive s) (hw : s.work w = p) (hp : p.holds = true) :
    s.mutex = some w := (h w).mpr (hw ▸ hp)

omit [DecidableEq Worker] [DecidableEq Caller] in
theorem Exclusive.free (h : Exclusive s) (hfree : s.mutex = none) (w : Worker) : (s.work w).holds = false := by
  cases hw : (s.work w).holds with
  | false => rfl
  | true => cases hfree.symm.trans ((h w).mpr hw)

omit [DecidableEq Caller] in
/-- A worker keeps the mutex, or does without. -/
theorem Exclusive.workAt {p : Work} (h : Exclusive s) (hp : p.holds = (s.work w).holds) :
    Exclusive (s.workAt w p) := by
  intro v
  refine (h v).trans ?_
  rcases eq_or_ne v w with rfl | hne
  · simp [State.workAt, hp]
  · simp [State.workAt, hne]

omit [DecidableEq Caller] in
theorem Exclusive.lock {p : Work} (h : Exclusive s) (hfree : s.mutex = none) (hp : p.holds = true) :
    Exclusive ({s with mutex := some w}.workAt w p) := by
  intro v
  rcases eq_or_ne v w with rfl | hne
  · simp [State.workAt, hp]
  · simp [State.workAt, hne, Ne.symm hne, h.free hfree v]

omit [DecidableEq Caller] in
theorem Exclusive.unlock {p : Work} (h : Exclusive s) (hw : (s.work w).holds = true) (hp : p.holds = false) :
    Exclusive (s.unlock.workAt w p) := by
  have hmine := (h w).mpr hw
  intro v
  rcases eq_or_ne v w with rfl | hne
  · simp [State.workAt, State.unlock, hp]
  · have hother : ¬(s.work v).holds = true := fun hv => hne (Option.some.inj (((h v).mpr hv).symm.trans hmine))
    simp [State.workAt, State.unlock, hne, hother]

theorem exclusive_step (h : Exclusive s) (hs : Step a s s') : Exclusive s' := by
  cases hs
  case go hw _ | stopped hw _ | queued hw _ | unqueued hw _ | wait hw _ | shutdown hw _ | wake hw | empty hw _ |
      finish hw => exact h.workAt (by rw [hw]; rfl)
  case notify_one hw => exact h.workAt (by rw [hw]; rfl)
  case lock hfree | relock hfree => exact h.lock hfree rfl
  case block hw | leave hw _ | again hw _ | miss hw _ _ => exact h.unlock (by rw [hw]; rfl) rfl
  case pop h' p q hw _ _ =>
    have hpop : Exclusive (s.pop h' p q) := h
    exact hpop.unlock (by rw [State.pop, hw]; rfl) rfl
  case notify_all =>
    intro v
    refine (h v).trans ?_
    dsimp only
    cases s.work v <;> rfl
  all_goals exact h

theorem exclusive (h : Reachable (system Worker Caller) s) : Exclusive s := by
  induction h with
  | initial hs =>
    subst hs
    intro w
    simp [initial, Work.holds]
  | step _ hs ih => exact exclusive_step ih hs

/-! ### The queue -/

/-- The count is right, who has found the queue empty finds it so, and what was pushed comes out in order. -/
structure Queue (s : State Worker Caller) : Prop where
  count : s.queued_count = s.ready.total
  size : s.ready.total < word
  idle : ∀ w, (s.work w).idle = true → s.ready.total = 0
  order : ∀ p, s.pushed p = s.popped p ++ s.ready p

omit [DecidableEq Worker] [DecidableEq Caller] in
theorem Queue.pop_locked (h : Queue s) : Standard.pop_locked s.queued_count s.ready = s.ready.pop false := by
  unfold Standard.pop_locked
  split
  · next hzero => rw [ReadyQueues.pop_eq_none.mpr (h.count.symm.trans hzero)]
  · rfl

namespace Queue
variable (h : Queue s)
include h

omit [DecidableEq Caller] in
theorem workAt {p : Work} (hp : p.idle = true → s.ready.total = 0) : Queue (s.workAt w p) where
  count := h.count
  size := h.size
  order := h.order
  idle v hv := by
    rcases eq_or_ne v w with rfl | hne
    · exact hp (by simpa [State.workAt] using hv)
    · exact h.idle v (by simpa [State.workAt, hne] using hv)

omit [DecidableEq Worker] [DecidableEq Caller]

/-- Callers, the mutex and `running_` do not matter. -/
theorem frame (hready : s'.ready = s.ready) (hcount : s'.queued_count = s.queued_count)
    (hwork : s'.work = s.work) (hpushed : s'.pushed = s.pushed) (hpopped : s'.popped = s.popped) : Queue s' where
  count := by rw [hcount, hready, h.count]
  size := by rw [hready]; exact h.size
  idle := by rw [hready, hwork]; exact h.idle
  order := by rw [hready, hpushed, hpopped]; exact h.order

theorem unlock : Queue s.unlock := h.frame rfl rfl rfl rfl rfl

theorem lock : Queue {s with mutex := some w} := h.frame rfl rfl rfl rfl rfl

omit [DecidableEq Caller] in
theorem callAt [DecidableEq Caller] {p : Call} : Queue (s.callAt c p) := h.frame rfl rfl rfl rfl rfl

theorem push {g : TaskHandle} {p : TaskPriority} (hsize : s.ready.total + 1 < word)
    (hidle : ∀ w, (s.work w).idle = false) : Queue (s.push g p) where
  count := by
    show (s.queued_count + 1) % word = (s.ready.push g p).total
    rw [ReadyQueues.total_push, h.count, Nat.mod_eq_of_lt hsize]
  size := by
    show (s.ready.push g p).total < word
    rwa [ReadyQueues.total_push]
  idle w hw := by cases (hidle w).symm.trans hw
  order q := by
    show Function.update s.pushed p (s.pushed p ++ [g]) q =
      s.popped q ++ Function.update s.ready p (s.ready p ++ [g]) q
    rcases eq_or_ne q p with rfl | hne
    · simp [h.order]
    · simp [hne, h.order]

theorem pop {g : TaskHandle} {p : TaskPriority} {q : ReadyQueues}
    (hpop : Standard.pop_locked s.queued_count s.ready = some (g, p, q)) : Queue (s.pop g p q) := by
  rw [h.pop_locked] at hpop
  have htotal := ReadyQueues.total_pop hpop
  obtain ⟨rest, hfront, rfl⟩ := ReadyQueues.pop_some hpop
  have hsize := h.size
  refine ⟨?_, ?_, ?_, ?_⟩
  · show (s.queued_count + word - 1) % word = _
    rw [h.count, show s.ready.total + word - 1 = ReadyQueues.total (Function.update s.ready p rest) + word by omega,
      Nat.add_mod_right, Nat.mod_eq_of_lt (by omega)]
    rfl
  · show ReadyQueues.total (Function.update s.ready p rest) < word
    omega
  · intro w hw
    have := h.idle w hw
    omega
  · intro r
    show s.pushed r = Function.update s.popped p (s.popped p ++ [g]) r ++ Function.update s.ready p rest r
    rcases eq_or_ne r p with rfl | hne
    · simp [h.order, hfront]
    · simp [hne, h.order]

end Queue

theorem queue_step (hmutex : Exclusive s) (h : Queue s) (hs : Step a s s') (hsized : s'.ready.total < word) :
    Queue s' := by
  cases hs
  case go | stopped | queued | finish | wake | shutdown => exact h.workAt nofun
  case lock | relock => exact h.lock.workAt nofun
  case block | again | miss | leave => exact h.unlock.workAt nofun
  case unqueued hzero | empty hzero => exact h.workAt fun _ => h.count.symm.trans hzero
  case wait w hw _ => exact h.workAt fun _ => h.idle w (by rw [hw]; rfl)
  case pop hpop => exact (h.pop hpop).unlock.workAt nofun
  case popped hpop => exact (h.pop hpop).callAt
  case push hfree =>
    refine (h.push ((ReadyQueues.total_push ..).symm.trans_lt hsized) fun w => ?_).callAt
    have hout := hmutex.free hfree w
    cases hw : s.work w <;> first | rfl | (rw [hw] at hout; cases hout)
  case notify_one => exact (h.workAt (p := .woken) nofun).callAt
  case notify_all =>
    refine ⟨h.count, h.size, fun w hw => h.idle w ?_, h.order⟩
    dsimp only at hw
    cases hp : s.work w <;> rw [hp] at hw <;> exact hw
  case stop => exact h.frame rfl rfl rfl rfl rfl
  all_goals exact h.callAt

/-- A step queues one task at most. -/
theorem total_step (hs : Step a s s') : s'.ready.total ≤ s.ready.total + 1 := by
  cases hs
  case push => exact (ReadyQueues.total_push ..).le
  case pop hpop | popped hpop =>
    unfold pop_locked at hpop
    split at hpop
    · cases hpop
    · have hless := (Nat.le_succ _).trans_eq (ReadyQueues.total_pop hpop).symm
      exact hless.trans (Nat.le_succ _)
  all_goals exact Nat.le_succ _

theorem queue (h : Reachable ((system Worker Caller).restrict Sized) s) : Queue s := by
  induction h with
  | initial hs =>
    subst hs
    exact ⟨rfl, by show 0 < word; decide, nofun, fun _ => rfl⟩
  | step h hs ih => exact queue_step (exclusive h.of_restrict) ih hs.1 ((total_step hs.1).trans_lt hs.2)

/-- **What is handed out**: in each priority what was pushed first, the most urgent priority first, and nothing
only when nothing is queued. -/
theorem handed_in_order (h : Reachable ((system Worker Caller).restrict Sized) s) :
    (∀ p, s.pushed p = s.popped p ++ s.ready p) ∧
      (pop_locked s.queued_count s.ready = none ↔ ∀ p, s.ready p = []) ∧
      ∀ g p q, pop_locked s.queued_count s.ready = some (g, p, q) →
        (s.pushed p)[(s.popped p).length]? = some g ∧ ∀ r, r.level < p.level → s.ready r = [] := by
  have hqueue := queue h
  refine ⟨hqueue.order, ?_, ?_⟩
  · rw [hqueue.pop_locked, ReadyQueues.pop_none]
  · intro g p q hpop
    rw [hqueue.pop_locked] at hpop
    obtain ⟨rest, hfront, _⟩ := ReadyQueues.pop_some hpop
    refine ⟨by simp [hqueue.order, hfront], fun r hr => ?_⟩
    by_contra hne
    have hahead : p.level ≤ r.level := ReadyQueues.pop_ahead hpop hne
    omega

/-! ### One worker and one caller -/

namespace Single

abbrev Run (s : State Unit Unit) : Prop := Reachable ((system Unit Unit).restrict Sized) s

theorem Run.next {s s' : State Unit Unit} {a : Act Unit Unit} (h : Run s) (hempty : s.ready.total = 0)
    (hs : Step a s s') : Run s' :=
  Reachable.step h ⟨hs, by show s.ready.total + 1 < word; rw [hempty]; decide⟩

/-- The worker sleeps. -/
theorem asleep : ∃ s : State Unit Unit, Run s ∧ s.running = true ∧ s.work () = .blocked ∧ s.call () = .idle ∧
    s.mutex = none ∧ s.ready = .empty ∧ (∀ p, s.pushed p = []) ∧ ∀ p, s.popped p = [] := by
  have h0 : Run initial := .initial rfl
  have h1 := h0.next rfl (.go (w := ()) rfl rfl)
  have h2 := h1.next rfl (.lock (w := ()) rfl rfl)
  have h3 := h2.next rfl (.unqueued (w := ()) rfl rfl)
  have h4 := h3.next rfl (.wait (w := ()) rfl rfl)
  have h5 := h4.next rfl (.block (w := ()) rfl)
  exact ⟨_, h5, rfl, rfl, rfl, rfl, rfl, fun _ => rfl, fun _ => rfl⟩

def task : TaskHandle := ⟨0, 0⟩

/-- A task has been pushed; the notification is to come. -/
theorem pushed : ∃ s : State Unit Unit, Run s ∧ s.running = true ∧ s.work () = .blocked ∧
    s.call () = .notifying ∧ s.ready = ReadyQueues.empty.push task .Normal ∧ s.pushed .Normal = [task] ∧
      s.popped .Normal = [] := by
  obtain ⟨s, h, hrun, hwork, hcall, hmutex, hready, hpushed, hpopped⟩ := asleep
  have hempty : s.ready.total = 0 := by rw [hready]; rfl
  have h1 := h.next hempty (.enqueue_ready task .Normal hcall)
  have h2 := h1.next hempty (.push (c := ()) (Function.update_self () _ s.call) hmutex)
  refine ⟨_, h2, hrun, hwork, Function.update_self () _ s.call, ?_, ?_, hpopped _⟩
  · show s.ready.push task .Normal = _
    rw [hready]
  · show Function.update s.pushed .Normal (s.pushed .Normal ++ [task]) .Normal = _
    rw [Function.update_self, hpushed]
    rfl

end Single

open Single in
/-- The task is next. -/
theorem handed_in_order_pushed :
    ∃ s : State Unit Unit, Run s ∧ (s.pushed .Normal)[(s.popped .Normal).length]? = some task := by
  obtain ⟨s, h, _, _, _, hready, _⟩ := pushed
  have hpop := (queue h).pop_locked
  rw [hready] at hpop
  exact ⟨s, h, ((handed_in_order h).2.2 task .Normal _ (by rw [hready, hpop]; rfl)).1⟩

/-! ### A task has somebody on the way -/

section
variable [Fintype Worker] [Fintype Caller]

/-- The workers that will look at the queue, and the notifications to come. -/
def coming (s : State Worker Caller) : ℕ := count Work.seeking s.work + count Call.notifies s.call

omit [DecidableEq Caller] in
theorem coming_workAt (s : State Worker Caller) (w : Worker) (p : Work) :
    coming (s.workAt w p) + (s.work w).seeking.toNat = coming s + p.seeking.toNat := by
  have hcount := count_update Work.seeking s.work w p
  simp only [coming, State.workAt]
  omega

omit [DecidableEq Worker] in
theorem coming_callAt (s : State Worker Caller) (c : Caller) (p : Call) :
    coming (s.callAt c p) + (s.call c).notifies.toNat = coming s + p.notifies.toNat := by
  have hcount := count_update Call.notifies s.call c p
  simp only [coming, State.callAt]
  omega

/-- While a worker sleeps, no more tasks are queued than that. -/
def Served (s : State Worker Caller) : Prop :=
  s.running = true → ∀ w, s.work w = .blocked → s.ready.total ≤ coming s

omit [DecidableEq Worker] [DecidableEq Caller]

/-- A step that puts nobody to sleep, and queues no more tasks than it sends somebody for. -/
theorem Served.mono (h : Served s) (hrun : s'.running = true → s.running = true)
    (hblocked : ∀ w, s'.work w = .blocked → s.work w = .blocked)
    (hcount : s'.ready.total + coming s ≤ s.ready.total + coming s') : Served s' := by
  intro hrun' w hw
  have := h (hrun hrun') w (hblocked w hw)
  omega

theorem Served.of_empty (h : s.ready.total = 0) : Served s := by
  intro _ _ _
  omega

theorem Served.of_stopped (h : s.running = false) : Served s := fun hrun => by cases h.symm.trans hrun

omit [Fintype Worker] [Fintype Caller] in
theorem blocked_workAt [DecidableEq Worker] {v : Worker} {p : Work} (hp : p ≠ .blocked)
    (hv : (s.workAt w p).work v = .blocked) : s.work v = .blocked := by
  rcases eq_or_ne v w with rfl | hne
  · exact absurd (by simpa [State.workAt] using hv) hp
  · simpa [State.workAt, hne] using hv

theorem Served.workAt [DecidableEq Worker] {p : Work} (h : Served s) (hp : p ≠ .blocked)
    (hseeking : (s.work w).seeking = true → p.seeking = true) : Served (s.workAt w p) := by
  have hcoming := coming_workAt s w p
  have hle : (s.work w).seeking.toNat ≤ p.seeking.toNat := Bool.toNat_le_toNat hseeking
  refine h.mono id (fun _ => blocked_workAt hp) ?_
  show s.ready.total + _ ≤ s.ready.total + _
  omega

theorem Served.callAt [DecidableEq Caller] {p : Call} (h : Served s) (hnotifies : (s.call c).notifies = false) :
    Served (s.callAt c p) := by
  have hcoming := coming_callAt s c p
  rw [hnotifies, Bool.toNat_false] at hcoming
  refine h.mono id (fun _ => id) ?_
  show s.ready.total + _ ≤ s.ready.total + _
  omega

/-- A worker that takes a task has been on the way. -/
theorem Served.pop [DecidableEq Worker] {g : TaskHandle} {p : TaskPriority} {q : ReadyQueues} (h : Served s)
    (hw : s.work w = .deciding) (htotal : s.ready.total = q.total + 1) :
    Served ((s.pop g p q).unlock.workAt w (.executing g)) := by
  have hcoming := coming_workAt (s.pop g p q).unlock w (.executing g)
  have hold : (s.pop g p q).unlock.work w = .deciding := hw
  rw [hold] at hcoming
  refine h.mono id (fun v hv => blocked_workAt (s := (s.pop g p q).unlock) (p := .executing g) nofun hv) ?_
  show q.total + coming s ≤ _
  have hsame : coming (s.pop g p q).unlock = coming s := rfl
  simp only [Work.seeking, Bool.toNat_true, Bool.toNat_false] at hcoming
  omega

theorem Served.push [DecidableEq Caller] {g : TaskHandle} {p : TaskPriority} (h : Served s)
    (hc : s.call c = .pushing g p) : Served ((s.push g p).callAt c .notifying) := by
  have hcoming := coming_callAt (s.push g p) c .notifying
  have hold : (s.push g p).call c = .pushing g p := hc
  rw [hold] at hcoming
  refine h.mono id (fun _ => id) ?_
  show (s.ready.push g p).total + coming s ≤ s.ready.total + _
  have hsame : coming (s.push g p) = coming s := rfl
  simp only [Call.notifies, Bool.toNat_true, Bool.toNat_false] at hcoming
  rw [ReadyQueues.total_push]
  omega

theorem Served.notify [DecidableEq Worker] [DecidableEq Caller] (h : Served s) (hc : s.call c = .notifying)
    (hw : s.work w = .blocked) : Served ((s.workAt w .woken).callAt c .idle) := by
  have hwork := coming_workAt s w .woken
  have hcall := coming_callAt (s.workAt w .woken) c .idle
  have hold : (s.workAt w .woken).call c = .notifying := hc
  rw [hold] at hcall
  rw [hw] at hwork
  simp only [Work.seeking, Call.notifies, Bool.toNat_true, Bool.toNat_false] at hwork hcall
  refine h.mono id (fun v hv => blocked_workAt (w := w) (p := .woken) nofun hv) ?_
  show s.ready.total + _ ≤ s.ready.total + _
  omega

theorem served_step [DecidableEq Worker] [DecidableEq Caller] (hqueue : Queue s) (h : Served s)
    (hs : Step a s s') : Served s' := by
  cases hs
  case go hw _ | queued hw _ | wait hw _ => exact h.workAt nofun (by rw [hw]; exact id)
  case wake hw | finish hw => exact h.workAt nofun (by rw [hw]; exact nofun)
  case lock w hw _ | relock w hw _ =>
    have hlock : Served {s with mutex := some w} := h
    exact hlock.workAt nofun (fun _ => rfl)
  case again hw _ | miss hw _ _ =>
    have hunlock : Served s.unlock := h
    exact hunlock.workAt nofun (fun _ => rfl)
  case unqueued hzero | empty hzero => exact .of_empty (hqueue.count.symm.trans hzero)
  case block w hw => exact .of_empty (hqueue.idle w (by rw [hw]; rfl))
  case stopped hrun | shutdown hrun | leave hrun => exact .of_stopped hrun
  case stop => exact .of_stopped rfl
  case notify_all hrun _ => exact .of_stopped hrun
  case pop hw _ hpop => exact h.pop hw (ReadyQueues.total_pop (hqueue.pop_locked ▸ hpop))
  case popped g p q hc _ hpop =>
    have htotal := ReadyQueues.total_pop (hqueue.pop_locked ▸ hpop)
    have hpopped : Served (s.pop g p q) := by
      refine h.mono id (fun _ => id) ?_
      show q.total + coming s ≤ s.ready.total + coming s
      omega
    exact hpopped.callAt (by rw [State.pop, hc]; rfl)
  case push hc _ => exact h.push hc
  case notify_none hnone => exact fun _ w hw => absurd hw (hnone w)
  case notify_one hc hw => exact h.notify hc hw
  case enqueue_ready hc | try_pop hc => exact h.callAt (by rw [hc]; rfl)
  case popMiss hc _ _ => exact h.callAt (by rw [hc]; rfl)

/-- **No task is left lying**: while a worker sleeps, for every queued task somebody is on the way. -/
theorem task_on_the_way [DecidableEq Worker] [DecidableEq Caller]
    (h : Reachable ((system Worker Caller).restrict Sized) s) (hrun : s.running = true)
    (hw : s.work w = .blocked) : s.ready.total ≤ coming s := by
  refine h.invariant (P := Served) ?_ ?_ hrun w hw
  · intro _ hi
    obtain rfl := hi
    exact .of_empty rfl
  · intro _ _ _ h hserved hs
    exact served_step (queue h) hserved hs.1

/-- The worker sleeps, and its task is queued. -/
theorem task_on_the_way_asleep : ∃ s : State Unit Unit, Single.Run s ∧ s.work () = .blocked ∧
    s.ready.total = 1 ∧ 1 ≤ coming s := by
  obtain ⟨s, h, hrun, hwork, _, hready, _⟩ := Single.pushed
  have htotal : s.ready.total = 1 := by rw [hready]; rfl
  exact ⟨s, h, hwork, htotal, htotal ▸ task_on_the_way h hrun hwork⟩

end

/-! ### The destructor -/

/-- The flag is `running_` stored, the bell is `notify_all`. -/
def sleepers (Worker Caller : Type*) : Sleepers (State Worker Caller) Worker where
  flag s := s.running = false
  lock := State.mutex
  drowsy s w := s.work w = .blocking
  asleep s w := s.work w = .blocked

/-- A step moves its own worker, or wakes others. -/
theorem work_other (hs : Step a s s') (ha : a ≠ .work w) :
    s'.work w = s.work w ∨ s.work w = .blocked ∧ s'.work w = .woken := by
  cases hs
  case notify_one v _ hv | wake v hv =>
    rcases eq_or_ne w v with rfl | hne
    · exact .inr ⟨hv, Function.update_self ..⟩
    · exact .inl (Function.update_of_ne hne ..)
  case notify_all =>
    cases hw : s.work w
    case blocked => exact .inr ⟨rfl, by simp [hw]⟩
    all_goals exact .inl (by simp [hw])
  case enqueue_ready | push | notify_none | try_pop | popped | popMiss | stop => exact .inl rfl
  all_goals
    refine .inl (Function.update_of_ne ?_ ..)
    intro heq
    obtain rfl := heq
    exact ha rfl

theorem keeps (hs : Step a s s') : (sleepers Worker Caller).Keeps s s' where
  flag hflag := by cases hs <;> first | exact hflag | rfl
  drowsy w hdrowsy := by
    have hw : s'.work w = .blocking := hdrowsy
    clear hdrowsy
    rcases eq_or_ne a (.work w) with rfl | hne
    · cases hs
      case wait hrun _ => exact .inr fun hstopped => by cases hrun.symm.trans hstopped
      all_goals simp [State.workAt] at hw
    · obtain hsame | ⟨_, hwoken⟩ := work_other hs hne
      · exact .inl (hsame.symm.trans hw)
      · cases hwoken.symm.trans hw
  asleep w hasleep := by
    have hw : s'.work w = .blocked := hasleep
    clear hasleep
    rcases eq_or_ne a (.work w) with rfl | hne
    · cases hs
      case block hblocking => exact .inr hblocking
      all_goals simp [State.workAt] at hw
    · obtain hsame | ⟨_, hwoken⟩ := work_other hs hne
      · exact .inl (hsame.symm.trans hw)
      · cases hwoken.symm.trans hw

theorem rung (hmutex : Exclusive s₀) (hring : Step .notify_all s₀ s₁) : (sleepers Worker Caller).Rung s₁ := by
  have hkeeps := keeps hring
  cases hring
  case notify_all hstopped hfree =>
    refine Sleepers.rings (fun w hw => hmutex.of_work hw rfl) hfree hkeeps hstopped fun w hw => ?_
    have hw : _ = Work.blocked := hw
    dsimp only at hw
    split at hw
    · cases hw
    · next hne => exact hne hw

/-- How many steps a worker has left, once `running_` is false. -/
def Work.rank : Work → ℕ
  | returned => 0
  | testing | leaving => 1
  | executing _ => 2
  | deciding => 3
  | asking => 4
  | counting => 5
  | locking | woken => 6
  | blocking | blocked => 7

def rank [Fintype Worker] (s : State Worker Caller) : ℕ := ∑ w, (s.work w).rank

theorem rank_step [Fintype Worker] (hrung : (sleepers Worker Caller).Rung s) (hs : Step (.work w) s s') :
    rank s' < rank s := by
  have hsum := sum_update Work.rank s.work w
  have hstopped : s.running = false := hrung.flag
  have hlower : ∀ p : Work, s'.work = Function.update s.work w p → p.rank < (s.work w).rank →
      rank s' < rank s := by
    intro p hp hlt
    have := hsum p
    unfold rank
    rw [hp]
    omega
  cases hs
  case go hrun _ | wait hrun _ | again hrun _ => cases hstopped.symm.trans hrun
  case block hw => exact absurd hw (hrung.drowsy w)
  all_goals
    have hw := ‹s.work w = _›
    refine hlower _ rfl ?_
    rw [hw]
    simp [Work.rank]

/-- Who has not returned can go on, or waits for who can. -/
theorem work_enabled (hmutex : Exclusive s) (hrung : (sleepers Worker Caller).Rung s) (hw : s.work w ≠ .returned) :
    ∃ v s', Step (.work v : Act Worker Caller) s s' := by
  have hstopped : s.running = false := hrung.flag
  have hholds : ∀ v, (s.work v).holds = true → ∃ s', Step (.work v : Act Worker Caller) s s' := by
    intro v hv
    cases hpc : s.work v with
    | counting =>
      by_cases hzero : s.queued_count = 0
      · exact ⟨_, .unqueued hpc hzero⟩
      · exact ⟨_, .queued hpc hzero⟩
    | asking => exact ⟨_, .shutdown hpc hstopped⟩
    | blocking => exact ⟨_, .block hpc⟩
    | leaving => exact ⟨_, .leave hpc hstopped⟩
    | deciding =>
      by_cases hzero : s.queued_count = 0
      · exact ⟨_, .empty hpc hzero⟩
      · cases hpop : pop_locked s.queued_count s.ready with
        | none => exact ⟨_, .miss hpc hzero hpop⟩
        | some x => exact ⟨_, .pop (h := x.1) (p := x.2.1) (q := x.2.2) hpc hzero hpop⟩
    | _ => rw [hpc] at hv; cases hv
  have hlocks : (s.mutex = none → ∃ s', Step (.work w : Act Worker Caller) s s') →
      ∃ v s', Step (.work v : Act Worker Caller) s s' := by
    intro hfree
    cases hm : s.mutex with
    | none => exact ⟨w, hfree hm⟩
    | some v => exact ⟨v, hholds v ((hmutex v).mp hm)⟩
  cases hpc : s.work w with
  | testing => exact ⟨w, _, .stopped hpc hstopped⟩
  | locking => exact hlocks fun hfree => ⟨_, .lock hpc hfree⟩
  | woken => exact hlocks fun hfree => ⟨_, .relock hpc hfree⟩
  | executing h => exact ⟨w, _, .finish hpc⟩
  | blocked => exact absurd hpc (hrung.asleep w)
  | returned => exact absurd hpc hw
  | _ => exact ⟨w, hholds w (by rw [hpc]; rfl)⟩

/-- **The destructor's joins return**: after `notify_all` no worker sleeps, now or later, each worker has
finitely many steps left, and until all have returned one of them can make one. -/
theorem joins_return [Fintype Worker] (h₀ : Reachable (system Worker Caller) s₀) (hring : Step .notify_all s₀ s₁)
    (h : Reachable ((system Worker Caller).startingAt s₁) s) :
    (∀ w, s.work w ≠ .blocked) ∧
      (∀ a s', Step a s s' → (∃ w, a = .work w) ∧ rank s' < rank s ∨ s'.work = s.work) ∧
      ((∀ w, s.work w = .returned) ∨ ∃ w s', Step (.work w : Act Worker Caller) s s') := by
  have hrung := (rung (exclusive h₀) hring).run (fun _ _ _ => keeps) h
  have hreach : Reachable (system Worker Caller) s := (h₀.step hring).trans h
  refine ⟨hrung.asleep, fun a s' hs => ?_, ?_⟩
  · by_cases ha : ∃ w, a = .work w
    · obtain ⟨w, rfl⟩ := ha
      exact .inl ⟨⟨w, rfl⟩, rank_step hrung hs⟩
    · refine .inr (funext fun w => ?_)
      exact (work_other hs fun heq => ha ⟨w, heq⟩).resolve_right fun hwoken => hrung.asleep w hwoken.1
  · by_cases hall : ∀ w, s.work w = .returned
    · exact .inl hall
    · push Not at hall
      obtain ⟨w, hw⟩ := hall
      exact .inr (work_enabled (exclusive hreach) hrung hw)

/-- The worker sleeps when the destructor rings. -/
theorem joins_return_asleep : ∃ s₀ s₁ : State Unit Unit, Reachable (system Unit Unit) s₀ ∧
    s₀.work () = .blocked ∧ Step .notify_all s₀ s₁ ∧ s₁.work () ≠ .blocked := by
  obtain ⟨s, h, hrun, hwork, _, hmutex, _⟩ := Single.asleep
  have hstop := h.of_restrict.step (Step.stop hrun)
  have hring : Step .notify_all {s with running := false} _ := .notify_all rfl hmutex
  exact ⟨{s with running := false}, _, hstop, hwork, hring, (joins_return hstop hring (.initial rfl)).1 ()⟩

end Thunderbolt.Scheduler.Standard
