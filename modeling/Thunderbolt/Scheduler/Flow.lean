import Thunderbolt.Concurrent.Threads
import Thunderbolt.Executor.AbpDequeContent
import Thunderbolt.Scheduler.DispatchProofs
import Thunderbolt.Scheduler.StealingProofs

/-! What the tasks do in the stealing modes, one atomic step at a time.

A task comes in by a call of `enqueue_ready` and goes out when `acquire_next` has it (`Takes`). In between it
is in a deque, in the global queue, or in the hands of a thread that moves it: `State.tasks`. Every other step
keeps them (`tasks_alone`). A push on a deque ends with the task it began with, because nobody but the owner
pushes there (`Owned`). -/
namespace Thunderbolt

/-- The task in the hands of a call on the global queue. -/
def Executor.GlobalQueue.Pc.hand : GlobalQueue.Pc → Multiset TaskHandle
  | pushing h _ | uncounting h _ | popped (some (h, _)) => {h}
  | _ => 0

namespace Scheduler.Stealing
open Concurrent Executor

/-- The task a worker moves itself. -/
def Work.hand {n : ℕ} : Work n → Multiset TaskHandle
  | stocking _ h _ | enqueueing h _ => {h}
  | _ => 0

variable {n : ℕ} {External : Type}

/-- What has been enqueued and not taken. -/
def State.tasks [Fintype External] (s : State n External) : Multiset TaskHandle :=
  ∑ x, (s.deques x).content + s.global.queues.content + ∑ t, (s.global.pc t).hand + ∑ w, (s.work w).hand

/-- `acquire_next` of the worker has `h`. -/
inductive Takes (s s' : State n External) (w : Fin n) (h : TaskHandle) : Prop where
  | aged {c p} : s.work w = .aging c → s.global.pc (.inl w) = .popped (some (h, p)) → Takes s s' w h
  | popTook {c p rest r} : s.work w = .popping c p rest →
      (s'.deques (w, p)).returned = (s.deques (w, p)).returned ++ [r] → r.value = h → Takes s s' w h
  | drained {c p} : s.work w = .draining c → s.global.pc (.inl w) = .popped (some (h, p)) → Takes s s' w h
  | stole {c x rest r} : s.work w = .stealing c (x :: rest) →
      (s'.deques x).returned = (s.deques x).returned ++ [r] → r.value = h → Takes s s' w h

theorem Takes.hunts {s s' : State n External} {w : Fin n} {h : TaskHandle} (ht : Takes s s' w h) :
    (s.work w).hunts = true := by
  cases ht with
  | aged hw | popTook hw | drained hw | stole hw =>
    rw [hw]
    rfl

/-- The operation in progress on the deque is the worker's. -/
def Work.Fits : Work n → AbpDeque.OwnerPc TaskHandle → Prop
  | stocking _ h _, o | enqueueing h _, o => o = .idle ∨ InPush h o
  | popping _ _ _, o => o = .idle ∨ InPop o
  | _, _ => True

def Owned (s : State n External) : Prop :=
  ∀ w p, (s.work w).busy = some p → (s.work w).Fits (s.deques (w, p)).owner

variable [DecidableEq External] {cfg : RuntimeConfig} {a : Act n External} {s s' : State n External}

/-- No task comes in or goes out. -/
structure Alone (a : Act n External) (s s' : State n External) : Prop where
  enqueue : ∀ w h p, a = .work w → s.work w = .executing → s'.work w ≠ .enqueueing h p
  submit : ∀ e, a = .submit e → s.global.pc (.inr e) ≠ .idle
  takes : ∀ w h, a = .work w → ¬Takes s s' w h

omit [DecidableEq External] in
/-- Nothing is taken in a task. -/
theorem Alone.of_executing {w : Fin n} (hw : s.work w = .executing)
    (hw' : ∀ h p, s'.work w ≠ .enqueueing h p) : Alone (.work w) s s' where
  enqueue v h p hv _ := by
    cases hv
    exact hw' h p
  submit _ := nofun
  takes v h hv := by
    cases hv
    rintro (hpc | hpc | hpc | hpc) <;> cases hw.symm.trans hpc

/-! ### Operations on a deque -/

section Deque
variable {k : ℕ} {d d' : AbpDeque.State (Fin n) TaskHandle} {h : TaskHandle} {m : AbpDeque.Mover (Fin n)}
  {w : Fin n} {r : AbpDeque.Return TaskHandle} {y : ℤ × TaskHandle}

theorem content_inPush (hs : AbpDeque.Step k .owner d d') (hin : InPush h d'.owner) : d'.content = d.content := by
  cases hs <;> first | exact hin.elim | rfl

theorem returned_inPop (hs : AbpDeque.Step k .owner d d') (hin : InPop d'.owner) : d'.returned = d.returned := by
  cases hs <;> first | exact hin.elim | rfl

theorem content_inPop (hs : AbpDeque.Step k .owner d d') (hin : InPop d'.owner) : d'.content = d.content := by
  cases hs <;> first | exact hin.elim | rfl

theorem content_pushed (hc : AbpDeque.Contents k d) (hs : AbpDeque.Step k .owner d d')
    (hfits : d.owner = .idle ∨ InPush h d.owner) (hpushed : d'.pushed = d.pushed ++ [y]) :
    d'.content = h ::ₘ d.content := by
  cases hs with
  | pushPublish hown =>
    rw [hown] at hfits
    obtain rfl : _ = h := hfits.resolve_left nofun
    exact hc.content_push rfl rfl
  | _ => exact absurd (congrArg List.length hpushed) (by simp)

theorem content_full (hs : AbpDeque.Step k .owner d d') (hfits : d.owner = .idle ∨ InPush h d.owner)
    (hidle : d'.owner = .idle) (hpushed : d'.pushed = d.pushed) : d'.content = d.content := by
  cases hs with
  | pushFull => rfl
  | pushPublish => exact absurd (congrArg List.length hpushed) (by simp)
  | popEmpty hown | popTake hown | popReturn hown | popFail hown =>
    rw [hown] at hfits
    exact hfits.elim nofun False.elim
  | _ => cases hidle

theorem content_missed (hs : AbpDeque.Step k .owner d d') (hfits : d.owner = .idle ∨ InPop d.owner)
    (hidle : d'.owner = .idle) (hreturned : d'.returned = d.returned) : d'.content = d.content := by
  cases hs with
  | popEmpty | popFail => rfl
  | popTake | popReturn => exact absurd (congrArg List.length hreturned) (by simp)
  | pushFull hown | pushPublish hown =>
    rw [hown] at hfits
    exact hfits.elim nofun False.elim
  | _ => cases hidle

theorem content_thief (hs : AbpDeque.Step k (.thief w) d d') (hreturned : d'.returned = d.returned) :
    d'.content = d.content := by
  cases hs with
  | stealWon => exact absurd (congrArg List.length hreturned) (by simp [AbpDeque.State.thiefAt])
  | _ => rfl

theorem returned_thief (hs : AbpDeque.Step k (.thief w) d d') (hbusy : d'.thief w ≠ .idle) :
    d'.returned = d.returned := by
  cases hs with
  | stealWon => simp [AbpDeque.State.thiefAt] at hbusy
  | _ => rfl

theorem content_returned (hc : AbpDeque.Contents k d') (hs : AbpDeque.Step k m d d')
    (hreturned : d'.returned = d.returned ++ [r]) : d.content = r.value ::ₘ d'.content := by
  refine hc.content_return ?_ hreturned
  cases hs with
  | pushPublish => exact absurd (congrArg List.length hreturned) (by simp)
  | _ => rfl

end Deque

/-! ### Who operates on a deque -/

theorem owner_other (hs : Step cfg a s s') {x : DequeId n} (ha : a ≠ .work x.1) :
    (s'.deques x).owner = (s.deques x).owner := by
  have hmine : ∀ {w p d}, a = .work w → (Function.update s.deques (w, p) d x).owner = (s.deques x).owner := by
    intro w p d heq
    obtain rfl := heq
    rw [Function.update_of_ne]
    intro heq
    obtain rfl := heq
    exact ha rfl
  have htheirs : ∀ {y d w}, AbpDeque.Step cfg.capacityBits (.thief w) (s.deques y) d →
      (Function.update s.deques y d x).owner = (s.deques x).owner := by
    intro y d w hd
    rcases eq_or_ne x y with rfl | hne
    · rw [Function.update_self, (AbpDeque.owner_other hd nofun).1]
    · rw [Function.update_of_ne hne]
  cases hs with
  | pop | popTook | popMiss | push | stocked | stockFull | queued | overflow => exact hmine rfl
  | steal _ hd | stole _ hd | stealMiss _ hd => exact htheirs hd
  | _ => rfl

omit [DecidableEq External] in
theorem pushes_eq {p : Work n} {h : TaskHandle} {r : TaskPriority} (hp : p.pushes = some (h, r)) :
    (∃ i, p = .stocking i h r) ∨ p = .enqueueing h r := by
  cases p with
  | stocking i =>
    cases hp
    exact .inl ⟨i, rfl⟩
  | enqueueing =>
    cases hp
    exact .inr rfl
  | _ => cases hp

omit [DecidableEq External] in
theorem hand_of_pushes {p : Work n} {h : TaskHandle} {r : TaskPriority} (hp : p.pushes = some (h, r)) :
    p.hand = {h} := by
  obtain ⟨i, rfl⟩ | rfl := pushes_eq hp <;> rfl

theorem owned_step (hidle : Idle s) (h : Owned s) (hs : Step cfg a s s') : Owned s' := by
  intro v q hbusy
  by_cases ha : a = .work v
  · subst ha
    -- An operation begins on a deque where there is none.
    have hbegins : (s.work v).busy = none → (s'.deques (v, q)).owner = (s.deques (v, q)).owner →
        (s'.work v).Fits (s'.deques (v, q)).owner := by
      intro hold hsame
      rw [hsame, hidle (v, q) (by rw [hold]; nofun)]
      cases s'.work v <;> first | exact .inl rfl | trivial
    cases hs with
    | pop hw _ hin =>
      obtain rfl : _ = q := Option.some.inj ((congrArg Work.busy hw).symm.trans hbusy)
      simpa [hw, Work.Fits] using Or.inr hin
    | push hw _ hin =>
      obtain rfl : _ = q := Option.some.inj ((busy_of_pushes hw).symm.trans hbusy)
      obtain ⟨i, hw⟩ | hw := pushes_eq hw <;> simpa [hw, Work.Fits] using Or.inr hin
    | probeSome hw | unprobed hw | pulled hw | enqueue _ _ hw => exact hbegins (by rw [hw]; rfl) rfl
    | steal hw => cases (congrArg Work.busy hw).symm.trans hbusy
    | _ => simp [Work.busy] at hbusy
  · rw [owner_other hs ha, work_other hs ha]
    exact h v q (by rwa [work_other hs ha] at hbusy)

/-! ### What each update does to the tasks -/

section Updates
variable [Fintype External] (s : State n External) (w : Fin n) (p : Work n) (x : DequeId n)
  (d : AbpDeque.State (Fin n) TaskHandle) (t : Fin n ⊕ External) (g : GlobalQueue.Pc)
  (q : Parking.State (Fin n) (Fin n ⊕ External) (Look n))

omit [DecidableEq External]

@[simp] theorem tasks_parkAt : (s.parkAt q).tasks = s.tasks := rfl

@[simp] theorem tasks_popped : (s.popped w).tasks = s.tasks := rfl

theorem tasks_workAt : (s.workAt w p).tasks + (s.work w).hand = s.tasks + p.hand := by
  simp only [State.tasks, deques_workAt, global_workAt, work_workAt, add_assoc, sum_update]

theorem tasks_dequeAt : (s.dequeAt x d).tasks + (s.deques x).content = s.tasks + d.content := by
  have hsum := sum_update AbpDeque.State.content s.deques x d
  simp only [State.tasks, deques_dequeAt, global_dequeAt, work_dequeAt]
  calc _ = ∑ y, (Function.update s.deques x d y).content + (s.deques x).content +
        (s.global.queues.content + ∑ t, (s.global.pc t).hand + ∑ w, (s.work w).hand) := by ac_rfl
    _ = _ := by rw [hsum]; ac_rfl

variable {s w p x d}

theorem tasks_workAt_same (h : p.hand = (s.work w).hand) : (s.workAt w p).tasks = s.tasks :=
  add_right_cancel ((tasks_workAt s w p).trans (congrArg _ h))

theorem tasks_dequeAt_same (h : d.content = (s.deques x).content) : (s.dequeAt x d).tasks = s.tasks :=
  add_right_cancel ((tasks_dequeAt s x d).trans (congrArg _ h))

end Updates

section Updates
variable [Fintype External] (s : State n External) (t : Fin n ⊕ External) (g : GlobalQueue.Pc)

theorem tasks_global {u : GlobalQueue.State (Fin n ⊕ External)} (hpc : u.pc = Function.update s.global.pc t g) :
    {s with global := u}.tasks + (s.global.queues.content + (s.global.pc t).hand) =
      s.tasks + (u.queues.content + g.hand) := by
  have hsum := sum_update GlobalQueue.Pc.hand s.global.pc t g
  simp only [State.tasks, hpc]
  calc _ = ∑ v, (Function.update s.global.pc t g v).hand + (s.global.pc t).hand +
        (∑ x, (s.deques x).content + ∑ w, (s.work w).hand) + s.global.queues.content + u.queues.content := by ac_rfl
    _ = _ := by rw [hsum]; ac_rfl

variable {s t g}

theorem tasks_globalAt : (s.globalAt t g).tasks + (s.global.pc t).hand = s.tasks + g.hand := by
  refine add_left_cancel (a := s.global.queues.content) ?_
  rw [add_left_comm, add_left_comm _ s.tasks]
  exact tasks_global s t g rfl

theorem tasks_globalAt_same (h : g.hand = (s.global.pc t).hand) : (s.globalAt t g).tasks = s.tasks :=
  add_right_cancel (tasks_globalAt.trans (congrArg _ h))

theorem tasks_global_same {u : GlobalQueue.State (Fin n ⊕ External)} (hpc : u.pc = Function.update s.global.pc t g)
    (h : u.queues.content + g.hand = s.global.queues.content + (s.global.pc t).hand) :
    {s with global := u}.tasks = s.tasks :=
  add_right_cancel ((tasks_global s t g hpc).trans (congrArg _ h))

variable {w : Fin n} {p : Work n} {x : DequeId n} {d : AbpDeque.State (Fin n) TaskHandle}

theorem tasks_work_global : ((s.workAt w p).globalAt t g).tasks + ((s.global.pc t).hand + (s.work w).hand) =
    s.tasks + (g.hand + p.hand) := by
  have hglobal : ((s.workAt w p).globalAt t g).tasks + (s.global.pc t).hand = (s.workAt w p).tasks + g.hand :=
    tasks_globalAt
  rw [← add_assoc, hglobal, add_right_comm, tasks_workAt, add_assoc, add_comm p.hand]

omit [DecidableEq External] in
theorem tasks_work_deque : ((s.workAt w p).dequeAt x d).tasks + ((s.deques x).content + (s.work w).hand) =
    s.tasks + (d.content + p.hand) := by
  have hdeque : ((s.workAt w p).dequeAt x d).tasks + (s.deques x).content = (s.workAt w p).tasks + d.content :=
    tasks_dequeAt ..
  rw [← add_assoc, hdeque, add_right_comm, tasks_workAt, add_assoc, add_comm p.hand]

/-- The operations on the global queue keep the tasks. -/
theorem tasks_operation {u : GlobalQueue.State (Fin n ⊕ External)} (hs : GlobalQueue.Step t s.global u) :
    {s with global := u}.tasks = s.tasks := by
  cases hs with
  | append hpc =>
    refine tasks_global_same rfl ?_
    rw [hpc]
    show (s.global.queues.push _ _).content + 0 = _ + {_}
    rw [ReadyQueues.content_push, add_zero, add_comm, Multiset.singleton_add]
  | take hpc _ hpop =>
    refine tasks_global_same rfl ?_
    rw [hpc, ReadyQueues.content_pop hpop, add_comm]
    exact Multiset.singleton_add .. |>.trans (add_zero _).symm
  | count hpc | none hpc | some hpc | empty hpc | uncount hpc =>
    refine tasks_global_same rfl ?_
    rw [hpc]
    rfl

end Updates

/-! ### The tasks are kept -/

/-- What the flow of the tasks rests on. -/
structure Held (cfg : RuntimeConfig) (s : State n External) : Prop where
  inv : Inv cfg s
  contents : ∀ x, AbpDeque.Contents cfg.capacityBits (s.deques x)
  owned : Owned s

namespace Held

omit [DecidableEq External] in
theorem initial (h : Initial s) : Held cfg s where
  inv := inv_initial h
  contents x := AbpDeque.contents_initial (h.deques x)
  owned w p hbusy := by
    rw [h.work] at hbusy
    cases hbusy

theorem step [NeZero n] (h : Held cfg s) (hs : Step cfg a s s') : Held cfg s' where
  inv := inv_step h.inv hs
  contents x := by
    obtain heq | ⟨m, hd, _⟩ := deque_step hs x
    · exact heq ▸ h.contents x
    · exact AbpDeque.contents_step (h.inv.bounds x) (h.contents x) hd
  owned := owned_step h.inv.idle h.owned hs

theorem reachable {m : ℕ} {s : State (m + 1) External} (h : Reachable (system cfg m External) s) : Held cfg s :=
  h.invariant (P := Held cfg) (fun _ hi => initial hi) fun _ _ _ _ hheld hs => hheld.step hs

variable [Fintype External] (h : Held cfg s)
include h

omit [DecidableEq External] [Fintype External] in
theorem hand_calls {w : Fin n} {p : Work n} (hw : s.work w = p) (hp : p.calls = false) :
    (s.global.pc (.inl w)).hand = 0 := by
  rw [h.inv.calls w (by rwa [hw])]
  rfl

section Push
variable {w : Fin n} {p : Work n} {g : TaskHandle} {r : TaskPriority} {d : AbpDeque.State (Fin n) TaskHandle}
  (hw : (s.work w).pushes = some (g, r)) (hd : AbpDeque.Step cfg.capacityBits .owner (s.deques (w, r)) d)
include hw

omit [DecidableEq External] [Fintype External] in
theorem fits_push : (s.deques (w, r)).owner = .idle ∨ InPush g (s.deques (w, r)).owner := by
  have hfits := h.owned w r (busy_of_pushes hw)
  obtain ⟨i, heq⟩ | heq := pushes_eq hw <;> rwa [heq] at hfits

include hd

omit [DecidableEq External] in
/-- The deque has the task. -/
theorem tasks_pushed {y : ℤ × TaskHandle} (hpushed : d.pushed = (s.deques (w, r)).pushed ++ [y]) (hp : p.hand = 0) :
    ((s.workAt w p).dequeAt (w, r) d).tasks = s.tasks := by
  refine add_right_cancel (tasks_work_deque.trans (congrArg _ ?_))
  rw [content_pushed (h.contents _) hd (h.fits_push hw) hpushed, hand_of_pushes hw, hp, add_zero, add_comm,
    Multiset.singleton_add]

/-- The deque is full, and a call on the global queue has it. -/
theorem tasks_spilled (hidle : d.owner = .idle) (hpushed : d.pushed = (s.deques (w, r)).pushed) (hp : p.hand = 0) :
    (((s.workAt w p).dequeAt (w, r) d).globalAt (.inl w) (.pushing g r)).tasks = s.tasks := by
  have hcontent := content_full hd (h.fits_push hw) hidle hpushed
  have hcalls : (s.global.pc (.inl w)).hand = 0 := by
    obtain ⟨i, heq⟩ | heq := pushes_eq hw <;> exact h.hand_calls heq rfl
  have hmove : ((s.workAt w p).dequeAt (w, r) d).tasks + {g} = s.tasks := by
    refine add_right_cancel (b := (s.deques (w, r)).content) ?_
    have hsum := tasks_work_deque (s := s) (w := w) (p := p) (x := (w, r)) (d := d)
    rwa [hand_of_pushes hw, hp, hcontent, add_zero, add_comm (AbpDeque.State.content _), ← add_assoc] at hsum
  have hcall : (((s.workAt w p).dequeAt (w, r) d).globalAt (.inl w) (.pushing g r)).tasks +
      (s.global.pc (.inl w)).hand = ((s.workAt w p).dequeAt (w, r) d).tasks + {g} := tasks_globalAt
  rwa [hcalls, add_zero, hmove] at hcall

end Push

/-- A step by which no task comes in or goes out keeps the tasks. -/
theorem tasks_alone (hs : Step cfg a s s') (halone : Alone a s s') : s'.tasks = s.tasks := by
  have hglobal : ∀ {w p t g}, g.hand + p.hand = (s.global.pc t).hand + (s.work w).hand →
      ((s.workAt w p).globalAt t g).tasks = s.tasks :=
    fun heq => add_right_cancel (tasks_work_global.trans (congrArg _ heq))
  have hdeque : ∀ {w p x d}, d.content + p.hand = (s.deques x).content + (s.work w).hand →
      ((s.workAt w p).dequeAt x d).tasks = s.tasks :=
    fun heq => add_right_cancel (tasks_work_deque.trans (congrArg _ heq))
  cases hs with
  | stop hw | loop hw | strict hw | probe hw | probeEmpty hw | probeSome hw | unprobed hw | batched hw | spin hw
  | unhelped hw | help hw | finish hw => exact tasks_workAt_same (by rw [hw]; rfl)
  | park hw =>
    rw [tasks_parkAt]
    exact tasks_workAt_same (by rw [hw]; rfl)
  | age hw | drain hw | pull hw => exact hglobal (by rw [h.hand_calls hw rfl, hw]; rfl)
  | ageMiss hw hpc | drainMiss _ hw hpc | pullMiss hw hpc | restocked hw hpc => exact hglobal (by rw [hpc, hw]; rfl)
  | overflowed hw hpc =>
    rw [tasks_parkAt]
    exact hglobal (by rw [hpc, hw]; rfl)
  | pulled hw hpc => exact hglobal (by rw [hpc, hw]; exact (zero_add _).trans (add_zero _).symm)
  | aged hw hpc => exact absurd (.aged hw hpc) (halone.takes _ _ rfl)
  | drained hw hpc => exact absurd (.drained hw hpc) (halone.takes _ _ rfl)
  | popTook hw _ _ hreturned => exact absurd (.popTook hw (by simpa using hreturned) rfl) (halone.takes _ _ rfl)
  | stole hw _ _ hreturned => exact absurd (.stole hw (by simpa using hreturned) rfl) (halone.takes _ _ rfl)
  | enqueue g p hw => exact absurd (Function.update_self ..) (halone.enqueue _ g p rfl hw)
  | submit _ _ hpc => exact absurd hpc (halone.submit _ rfl)
  | submitted hpc =>
    rw [tasks_parkAt]
    exact tasks_globalAt_same (by rw [hpc]; rfl)
  | pop hw hd hin => exact tasks_dequeAt_same (content_inPop hd hin)
  | push hw hd hin => exact tasks_dequeAt_same (content_inPush hd hin)
  | popMiss hw hd hidle hreturned =>
    have hfits := h.owned _ _ (congrArg Work.busy hw)
    rw [hw] at hfits
    exact hdeque (by rw [content_missed hd hfits hidle hreturned, hw]; rfl)
  | steal hw hd hbusy => exact tasks_dequeAt_same (content_thief hd (returned_thief hd hbusy))
  | stealMiss hw hd _ hreturned => exact hdeque (by rw [content_thief hd hreturned, hw]; rfl)
  | global hg => exact tasks_operation hg
  | parking => rfl
  | stocked hw hd _ hpushed => exact h.tasks_pushed (congrArg Work.pushes hw) hd hpushed rfl
  | queued hw hd _ hpushed =>
    rw [tasks_parkAt]
    exact h.tasks_pushed (congrArg Work.pushes hw) hd hpushed rfl
  | stockFull hw hd hidle hpushed | overflow hw hd hidle hpushed =>
    exact h.tasks_spilled (congrArg Work.pushes hw) hd hidle hpushed rfl

/-! ### Tasks come in and go out -/

omit [Fintype External] h in
theorem from_executing {w : Fin n} (hs : Step cfg (.work w) s s') (hw : s.work w = .executing) :
    s' = s.workAt w (.acquiring .wait) ∨ s' = s.workAt w (.looking 0) ∨
      ∃ g p, s' = s.workAt w (.enqueueing g p) := by
  cases hs with
  | help => exact .inl rfl
  | finish => exact .inr (.inl rfl)
  | enqueue g p => exact .inr (.inr ⟨g, p, rfl⟩)
  | push hpushes => cases (congrArg Work.pushes hw).symm.trans hpushes
  | _ => cases hw.symm.trans ‹s.work w = _›

omit h in
theorem tasks_enqueue {w : Fin n} {g : TaskHandle} {p : TaskPriority} (hs : Step cfg (.work w) s s')
    (hw : s.work w = .executing) (hw' : s'.work w = .enqueueing g p) : s'.tasks = g ::ₘ s.tasks := by
  obtain rfl | rfl | ⟨g', p', rfl⟩ := from_executing hs hw
  · simp at hw'
  · simp at hw'
  · rw [work_workAt, Function.update_self, Work.enqueueing.injEq] at hw'
    obtain ⟨rfl, rfl⟩ := hw'
    have hsum := tasks_workAt s w (.enqueueing g' p')
    simpa [hw, Work.hand, add_comm s.tasks] using hsum

omit h in
theorem tasks_submit {e : External} {g : TaskHandle} {p : TaskPriority} (hs : Step cfg (.submit e) s s')
    (hpc : s.global.pc (.inr e) = .idle) (hpc' : s'.global.pc (.inr e) = .pushing g p) :
    s'.tasks = g ::ₘ s.tasks := by
  cases hs with
  | submit g' p' =>
    obtain ⟨rfl, rfl⟩ := GlobalQueue.Pc.pushing.inj ((Function.update_self ..).symm.trans hpc')
    have hsum := tasks_globalAt (s := s) (t := .inr e) (g := .pushing g' p')
    simpa [hpc, GlobalQueue.Pc.hand, add_comm s.tasks] using hsum
  | submitted hpc₂ => cases hpc.symm.trans hpc₂

omit h in
theorem tasks_popped_global {w : Fin n} {t : Fin n ⊕ External} {p : Work n} {g : TaskHandle} {q : TaskPriority}
    (hpc : s.global.pc t = .popped (some (g, q))) (hw : (s.work w).hand = 0) (hp : p.hand = 0) :
    s.tasks = g ::ₘ ((s.workAt w p).globalAt t .idle).tasks := by
  have hsum := tasks_work_global (s := s) (w := w) (t := t) (p := p) (g := .idle)
  simpa [hpc, hw, hp, GlobalQueue.Pc.hand, add_comm _ {g}] using hsum.symm

omit [DecidableEq External] in
theorem tasks_returned {w : Fin n} {x : DequeId n} {p : Work n} {m : AbpDeque.Mover (Fin n)}
    {d : AbpDeque.State (Fin n) TaskHandle} {r : AbpDeque.Return TaskHandle}
    (hd : AbpDeque.Step cfg.capacityBits m (s.deques x) d) (hreturned : d.returned = (s.deques x).returned ++ [r])
    (hw : (s.work w).hand = 0) (hp : p.hand = 0) : s.tasks = r.value ::ₘ ((s.workAt w p).dequeAt x d).tasks := by
  have hcontents := AbpDeque.contents_step (h.inv.bounds x) (h.contents x) hd
  have hsum := tasks_work_deque (s := s) (w := w) (x := x) (p := p) (d := d)
  rw [content_returned hcontents hd hreturned, hw, hp, add_zero, add_zero, ← Multiset.singleton_add, ← add_assoc] at hsum
  rw [← add_right_cancel hsum, add_comm, Multiset.singleton_add]

omit [Fintype External] h in
/-- A task is taken from the global queue or from a deque, by a worker that moves none. -/
theorem takes_cases {w : Fin n} {g : TaskHandle} (hs : Step cfg (.work w) s s') (ht : Takes s s' w g) :
    ∃ p : Work n, (p = .executing ∨ p = .batching 1) ∧ (s.work w).hand = 0 ∧
      ((∃ q, s.global.pc (.inl w) = .popped (some (g, q)) ∧ s' = ((s.workAt w p).globalAt (.inl w) .idle).popped w) ∨
        ∃ x d m r, AbpDeque.Step cfg.capacityBits m (s.deques x) d ∧ d.returned = (s.deques x).returned ++ [r] ∧
          r.value = g ∧ (s' = (s.workAt w p).dequeAt x d ∨ s' = ((s.workAt w p).dequeAt x d).popped w)) := by
  have hgrown : ∀ {l l' : List (AbpDeque.Return TaskHandle)} {r}, l' = l → l' ≠ l ++ [r] := by
    intro l _ r heq
    obtain rfl := heq
    simp
  cases ht with
  | aged hw hpc =>
    cases hs with
    | aged => exact ⟨_, .inl rfl, by rw [hw]; rfl, .inl ⟨_, hpc, rfl⟩⟩
    | ageMiss _ hpc₂ => cases hpc.symm.trans hpc₂
    | push hpushes => cases (congrArg Work.pushes hw).symm.trans hpushes
    | _ => cases hw.symm.trans ‹s.work w = _›
  | drained hw hpc =>
    cases hs with
    | drained => exact ⟨_, .inr rfl, by rw [hw]; rfl, .inl ⟨_, hpc, rfl⟩⟩
    | drainMiss _ _ hpc₂ => cases hpc.symm.trans hpc₂
    | push hpushes => cases (congrArg Work.pushes hw).symm.trans hpushes
    | _ => cases hw.symm.trans ‹s.work w = _›
  | popTook hw hreturned hr =>
    cases hs with
    | popTook hw₂ hd =>
      cases hw.symm.trans hw₂
      exact ⟨_, .inl rfl, by rw [hw]; rfl, .inr ⟨_, _, _, _, hd, by simpa using hreturned, hr, .inr rfl⟩⟩
    | pop hw₂ hd hin =>
      cases hw.symm.trans hw₂
      exact absurd (by simpa using hreturned) (hgrown (returned_inPop hd hin))
    | popMiss hw₂ _ _ hsame =>
      cases hw.symm.trans hw₂
      exact absurd (by simpa using hreturned) (hgrown hsame)
    | push hpushes => cases (congrArg Work.pushes hw).symm.trans hpushes
    | _ => cases hw.symm.trans ‹s.work w = _›
  | stole hw hreturned hr =>
    cases hs with
    | stole hw₂ hd =>
      cases hw.symm.trans hw₂
      exact ⟨_, .inl rfl, by rw [hw]; rfl, .inr ⟨_, _, _, _, hd, by simpa using hreturned, hr, .inl rfl⟩⟩
    | steal hw₂ hd hbusy =>
      cases hw.symm.trans hw₂
      exact absurd (by simpa using hreturned) (hgrown (returned_thief hd hbusy))
    | stealMiss hw₂ _ _ hsame =>
      cases hw.symm.trans hw₂
      exact absurd (by simpa using hreturned) (hgrown hsame)
    | push hpushes => cases (congrArg Work.pushes hw).symm.trans hpushes
    | _ => cases hw.symm.trans ‹s.work w = _›

omit [Fintype External] h in
theorem hunts_takes {w : Fin n} {g : TaskHandle} (hs : Step cfg (.work w) s s') (ht : Takes s s' w g) :
    (s'.work w).hunts = false := by
  obtain ⟨p, hp, _, ⟨q, _, rfl⟩ | ⟨x, d, m, r, _, _, _, rfl | rfl⟩⟩ := takes_cases hs ht <;>
    obtain rfl | rfl := hp <;> simp [Work.hunts, Work.searches]

theorem tasks_takes {w : Fin n} {g : TaskHandle} (hs : Step cfg (.work w) s s') (ht : Takes s s' w g) :
    s.tasks = g ::ₘ s'.tasks := by
  obtain ⟨p, hp, hw, ⟨q, hpc, rfl⟩ | ⟨x, d, m, r, hd, hreturned, rfl, hs'⟩⟩ := takes_cases hs ht
  · exact tasks_popped_global hpc hw (by obtain rfl | rfl := hp <;> rfl)
  · have hsum := h.tasks_returned hd hreturned hw (p := p) (by obtain rfl | rfl := hp <;> rfl)
    obtain rfl | rfl := hs' <;> exact hsum

/-! ### Nothing to take -/

omit [DecidableEq External] in
theorem tasks_eq_zero (hqueues : s.global.queues.total = 0) (hdeques : ∀ x, AbpDeque.Drained (s.deques x))
    (hcalls : ∀ t, (s.global.pc t).hand = 0) (hworks : ∀ w, (s.work w).hand = 0) : s.tasks = 0 := by
  have hcontent : s.global.queues.content = 0 := Multiset.card_eq_zero.mp hqueues
  rw [State.tasks, hcontent, Finset.sum_eq_zero fun x _ => (h.contents x).content_eq_zero (hdeques x),
    Finset.sum_eq_zero fun t _ => hcalls t, Finset.sum_eq_zero fun w _ => hworks w]
  rfl

end Held

end Scheduler.Stealing
end Thunderbolt
