import Thunderbolt.Runtime.Submit

/-! In-place submission agrees with plain submission, and undoes itself when the body's copy throws. -/
namespace Thunderbolt.Runtime.Submit
open Task.TaskPool Concurrent

variable {Tid Fn Queues Exception : Type} [DecidableEq Tid]
  {d : Derived Tid Fn Queues} {t : Tid} {s s' : State Tid Fn Queues}

/-- A state with no operation in progress: the pools are as some run of any number of threads
leaves them. A handle says how often its slot had been released when it was issued, in 32 bits. -/
structure WellFormed (d : Derived Tid Fn Queues) (s : State Tid Fn Queues) : Prop where
  pools : Reachable (system d.preferred_shard) s.pools
  idle : ∀ t, s.pools.pc t = .idle
  live : s.pools.live d.id = true
  /-- `capacity_` has 32 bits. -/
  capacity : (s.pool d).capacity < word
  generation : ∀ i, ((s.pool d).slots i).generation = s.releases i % word
  issued : ∀ h n, (h, n) ∈ s.issued → h.generation = n % word ∧ n ≤ s.releases h.index

/-! ### What each write does to the pool -/

section Writes
omit [DecidableEq Tid]

@[simp] theorem pool_setTask (s : State Tid Fn Queues) (i : ℕ) (task : Task Fn) :
    (s.setTask i task).pool d = s.pool d := rfl

@[simp] theorem pool_setState (s : State Tid Fn Queues) (i : ℕ) (x : TaskState) :
    (s.setState d i x).pool d = {s.pool d with
      slots := Function.update (s.pool d).slots i ⟨((s.pool d).slots i).generation, x⟩} :=
  Function.update_self ..

@[simp] theorem pool_hold (s : State Tid Fn Queues) (h : TaskHandle) :
    (s.hold d h).pool d = {s.pool d with held := h ::ₘ (s.pool d).held} := Function.update_self ..

/-- `Created` is overwritten before anyone looks. -/
theorem setState_hold_setState (s : State Tid Fn Queues) (i : ℕ) (x y : TaskState) (h : TaskHandle) :
    ((s.setState d i x).hold d h).setState d i y = (s.hold d h).setState d i y := by
  simp [State.setState, State.hold, State.pool, Thunderbolt.Task.TaskPool.State.setSlot,
    Thunderbolt.Task.TaskPool.State.setHeld, Thunderbolt.Task.TaskPool.State.setPool]

end Writes

/-- What `release` does to the pool, whichever list the slot goes on. -/
theorem pool_release (s : State Tid Fn Queues) (t : Tid) (h : TaskHandle) :
    ((s.release d t h).pool d).slots = Function.update (s.pool d).slots h.index
        ⟨(((s.pool d).slots h.index).generation + 1) % word, .Free⟩ ∧
      ((s.release d t h).pool d).held = (s.pool d).held.erase h ∧
      ((s.release d t h).pool d).capacity = (s.pool d).capacity := by
  have hsame := (SameSlots.refl ((s.pools.setSlot d.id h.index
    ⟨(((s.pool d).slots h.index).generation + 1) % word, .Free⟩).setHeld d.id
      ((s.pool d).held.erase h))).putFreeSlot d.preferred_shard t d.id h.index
  refine ⟨(hsame.slots d.id).trans ?_, (hsame.held d.id).trans ?_, (hsame.capacity d.id).trans ?_⟩ <;>
    simp [State.pool, Thunderbolt.Task.TaskPool.State.setSlot,
      Thunderbolt.Task.TaskPool.State.setHeld, Thunderbolt.Task.TaskPool.State.setPool]

/-! ### Taking a slot -/

theorem take_same (s : State Tid Fn Queues) : SameSlots s.pools (s.take d t).1.pools :=
  (SameSlots.refl s.pools).takeFreeSlot d.preferred_shard t d.id

theorem take_found {h : TaskHandle} (hfound : (s.take d t).2 = some h) :
    (s.pools.takeFreeSlot d.preferred_shard t d.id).2 = some h.index ∧
      h.generation = ((s.pool d).slots h.index).generation := by
  obtain ⟨i, hi, rfl⟩ := Option.map_eq_some_iff.mp hfound
  exact ⟨hi, by rw [State.pool, State.pool, ← (take_same (d := d) (t := t) s).slots d.id]; rfl⟩

omit [DecidableEq Tid] in
theorem get_eq {h : TaskHandle} (hvalid : h.valid = true) (hlt : h.index < (s.pool d).capacity)
    (hcurrent : ((s.pool d).slots h.index).generation = h.generation) :
    s.get d h = some h.index := by
  simp [State.get, hvalid, hlt, hcurrent]

variable {h : TaskHandle}

/-- What a submission does with the handle of the slot it has taken. -/
def State.enter (d : Derived Tid Fn Queues) (t : Tid) (s : State Tid Fn Queues) (f : Fn)
    (priority : TaskPriority) (h : TaskHandle) : State Tid Fn Queues :=
  let s := s.setTask h.index ⟨some f, 0, priority, .None, 0, (s.tasks h.index).successors.reopen⟩
  let s := s.hold d h
  ((s.setState d h.index .Queued).enqueueReady d t h priority).issue h

omit [DecidableEq Tid] in
theorem pool_enter (d : Derived Tid Fn Queues) (s : State Tid Fn Queues) (t : Tid) (f : Fn)
    (priority : TaskPriority) (h : TaskHandle) : (s.enter d t f priority h).pool d = {s.pool d with
      slots := Function.update (s.pool d).slots h.index
        ⟨((s.pool d).slots h.index).generation, .Queued⟩
      held := h ::ₘ (s.pool d).held} := by
  have hpool : (s.enter d t f priority h).pool d = (((s.setTask h.index ⟨some f, 0, priority, .None, 0,
    (s.tasks h.index).successors.reopen⟩).hold d h).setState d h.index .Queued).pool d := rfl
  rw [hpool]
  simp

/-! ### The operations keep a state well formed -/

namespace WellFormed

theorem setTask (hs : WellFormed d s) (i : ℕ) (task : Task Fn) : WellFormed d (s.setTask i task) :=
  ⟨hs.1, hs.2, hs.3, hs.4, hs.5, hs.6⟩

theorem enqueueReady (hs : WellFormed d s) (t : Tid) (h : TaskHandle) (priority : TaskPriority) :
    WellFormed d (s.enqueueReady d t h priority) :=
  ⟨hs.1, hs.2, hs.3, hs.4, hs.5, hs.6⟩

theorem setState (hs : WellFormed d s) (hheld : h ∈ (s.pool d).held) (t : Tid) (x : TaskState) :
    WellFormed d (s.setState d h.index x) where
  pools := hs.pools.step (l := t) (.advance d.id h x (hs.idle t) hs.live hheld)
  idle := hs.idle
  live := hs.live
  capacity := by simpa using hs.capacity
  generation i := by
    refine Eq.trans ?_ (hs.generation i)
    rw [pool_setState]
    rcases eq_or_ne i h.index with rfl | hi
    · simp
    · simp [hi]
  issued := hs.issued

theorem issue (hs : WellFormed d s) (hcurrent : ((s.pool d).slots h.index).generation = h.generation) :
    WellFormed d (s.issue h) where
  pools := hs.pools
  idle := hs.idle
  live := hs.live
  capacity := hs.capacity
  generation := hs.generation
  issued g n hmem := by
    rcases List.mem_cons.mp hmem with heq | hmem
    · obtain ⟨rfl, rfl⟩ := Prod.mk.inj heq
      exact ⟨hcurrent ▸ hs.generation _, le_rfl⟩
    · exact hs.issued g n hmem

/-- A slot taken is handed out. -/
theorem hold (hs : WellFormed d s) (htake : s.take d t = (s', some h)) :
    WellFormed d (s'.hold d h) := by
  obtain rfl : (s.take d t).1 = s' := by rw [htake]
  have hfound : (s.take d t).2 = some h := by rw [htake]
  have hsame := take_same (d := d) (t := t) s
  have hslots : ((s.take d t).1.pool d).slots = (s.pool d).slots := hsame.slots d.id
  have hcap : ((s.take d t).1.pool d).capacity = (s.pool d).capacity := hsame.capacity d.id
  have hidle : ∀ u, (s.take d t).1.pools.pc u = .idle := fun u => hsame.pc ▸ hs.idle u
  have hrun := reserve_run (hs.idle t) hs.live (take_found hfound).1 (hidle t)
  have hgen : (((s.take d t).1.pool d).slots h.index).generation = h.generation := by
    rw [hslots, (take_found hfound).2]
  refine ⟨?_, hidle, hsame.live ▸ hs.live, ?_, fun i => ?_, hs.issued⟩
  · have hreach := Run.reachable hrun hs.pools
    have hmk : (⟨h.index, (((s.pools.takeFreeSlot d.preferred_shard t d.id).1.pools d.id).slots
        h.index).generation⟩ : TaskHandle) = h := congrArg (TaskHandle.mk h.index) hgen
    rw [hmk] at hreach
    exact hreach
  · rw [pool_hold]
    exact hcap ▸ hs.capacity
  · rw [pool_hold]
    exact (congrArg (fun slots => (slots i).generation) hslots).trans (hs.generation i)

/-- A pooled submission, of whatever body. -/
theorem enter (hs : WellFormed d s) (htake : s.take d t = (s', some h)) (f : Fn)
    (priority : TaskPriority) : WellFormed d (s'.enter d t f priority h) := by
  have hfound : (s.take d t).2 = some h := by rw [htake]
  have hsame := take_same (d := d) (t := t) s
  rw [htake] at hsame
  have hslots : (s'.pool d).slots = (s.pool d).slots := hsame.slots d.id
  have hheld := (hs.hold htake).setTask h.index
    ⟨some f, 0, priority, .None, 0, (s'.tasks h.index).successors.reopen⟩
  have hqueued := hheld.setState (h := h) (by simp) t .Queued
  refine (hqueued.enqueueReady t h priority).issue ?_
  have hpool := pool_enter d s' t f priority h
  have hgen : ((s'.enter d t f priority h).pool d).slots h.index = ⟨h.generation, .Queued⟩ := by
    rw [hpool, hslots, (take_found hfound).2]
    simp
  exact congrArg Slot.generation hgen

theorem release (hs : WellFormed d s) (hheld : h ∈ (s.pool d).held) : WellFormed d (s.release d t h) := by
  have hrun := release_run d.preferred_shard (hs.idle t) hs.live
    (Multiset.cons_erase hheld).symm
  have hsame := (SameSlots.refl ((s.pools.setSlot d.id h.index
    ⟨(((s.pool d).slots h.index).generation + 1) % word, .Free⟩).setHeld d.id
      ((s.pool d).held.erase h))).putFreeSlot d.preferred_shard t d.id h.index
  obtain ⟨hslots, -, hcap⟩ := pool_release (d := d) s t h
  refine ⟨Run.reachable hrun hs.pools, fun u => ?_, ?_, ?_, fun i => ?_, fun g n hmem => ?_⟩
  · exact (congrFun hsame.pc u).trans (hs.idle u)
  · exact (congrFun hsame.live d.id).trans hs.live
  · rw [hcap]
    exact hs.capacity
  · rw [hslots]
    show _ = Function.update s.releases h.index (s.releases h.index + 1) i % word
    rcases eq_or_ne i h.index with rfl | hi
    · simp [hs.generation, Nat.add_mod]
    · simpa [hi] using hs.generation i
  · obtain ⟨hg, hn⟩ := hs.issued g n hmem
    refine ⟨hg, hn.trans ?_⟩
    show _ ≤ Function.update s.releases h.index (s.releases h.index + 1) g.index
    rcases eq_or_ne g.index h.index with heq | hne
    · simp [heq]
    · simp [hne]

end WellFormed

/-! ### The two paths agree -/

variable {f : Fn} {priority : TaskPriority}

theorem submitEmplace_found (htake : s.count.take d t = (s', some h)) :
    s.submitEmplace d t (.ok f : Except Exception Fn) priority =
      (s'.enter d t f priority h, .ok h) := by
  simp only [State.submitEmplace, State.reserve, htake, State.emplace]
  simp [State.enter, State.setTask, State.hold, State.setState, State.pool]

theorem acquire_found (htake : s.take d t = (s', some h)) (desc : TaskDesc Fn) :
    s.acquire d t desc =
      (((s'.setTask h.index ⟨desc.function, 0, desc.priority, desc.flags, desc.estimated_cost,
          (s'.tasks h.index).successors.reopen⟩).setState d h.index .Created).hold d h,
        {desc with function := none}, h) := by
  simp only [State.acquire, htake]

section Agree
variable [Fintype Tid]

/-- A handle taken is valid and within the pool. -/
theorem take_valid (hs : WellFormed d s) {h : TaskHandle} (hfound : (s.take d t).2 = some h) :
    h.valid = true ∧ h.index < (s.pool d).capacity := by
  have hlt := takeFreeSlot_lt hs.pools (hs.idle t) hs.live (take_found hfound).1
  refine ⟨?_, hlt⟩
  have hne : h.index < TaskHandle.kInvalidIndex := hlt.trans_le (Nat.le_of_lt_succ hs.capacity)
  simpa [TaskHandle.valid] using hne.ne

/-- The handle of the slot just acquired resolves. -/
theorem get_acquired (hs : WellFormed d s) (htake : s.take d t = (s', some h)) (desc : TaskDesc Fn) :
    h.valid = true ∧ (s.acquire d t desc).1.get d h = some h.index := by
  have hfound : (s.take d t).2 = some h := by rw [htake]
  have hsame := take_same (d := d) (t := t) s
  rw [htake] at hsame
  obtain ⟨hvalid, hlt⟩ := take_valid hs hfound
  have hcap : (s'.pool d).capacity = (s.pool d).capacity := hsame.capacity d.id
  have hslots : (s'.pool d).slots = (s.pool d).slots := hsame.slots d.id
  refine ⟨hvalid, ?_⟩
  rw [acquire_found htake]
  refine get_eq hvalid ?_ ?_
  · simpa [hcap] using hlt
  · simp [hslots, (take_found hfound).2]

theorem submit_found (hs : WellFormed d s.count) (htake : s.count.take d t = (s', some h)) (f : Fn)
    (priority : TaskPriority) :
    s.submit d t ⟨some f, priority, .None, 0⟩ = (s'.enter d t f priority h, h) := by
  obtain ⟨hvalid, hget⟩ := get_acquired hs htake ⟨some f, priority, .None, 0⟩
  rw [acquire_found htake] at hget
  simp only [State.submit, acquire_found htake, hvalid, hget, Bool.not_true, Bool.false_eq_true,
    if_false, setState_hold_setState]
  rfl

omit [Fintype Tid] in
theorem WellFormed.count (hs : WellFormed d s) : WellFormed d s.count :=
  ⟨hs.1, hs.2, hs.3, hs.4, hs.5, hs.6⟩

/-- In-place submission leaves the state and returns the handle that plain submission does. -/
theorem submitEmplace_eq (hs : WellFormed d s) (t : Tid) (f : Fn) (priority : TaskPriority) :
    s.submitEmplace d t (.ok f : Except Exception Fn) priority =
      ((s.submit d t ⟨some f, priority, .None, 0⟩).1, .ok (s.submit d t ⟨some f, priority, .None, 0⟩).2) := by
  rcases htake : s.count.take d t with ⟨s', _ | h⟩
  · simp only [State.submitEmplace, State.reserve, State.submit, State.acquire, htake, State.emplace]
    rfl
  · rw [submitEmplace_found htake, submit_found hs.count htake f priority]

/-! ### A copy that throws -/

/-- State `s'` is `s` but for the slot `taken`, which is free again and one generation on. A handle
to it issued before resolves only once 2^32 releases have gone by since. -/
structure Restored (d : Derived Tid Fn Queues) (taken : Option TaskHandle)
    (s s' : State Tid Fn Queues) : Prop where
  outstanding : s'.outstanding_ = s.outstanding_
  ready : s'.ready = s.ready
  capacity : (s'.pool d).capacity = (s.pool d).capacity
  executions : s'.inline_executions_ = s.inline_executions_ ∧ s'.issued = s.issued
  others : ∀ i, (∀ h, taken = some h → i ≠ h.index) →
    s'.tasks i = s.tasks i ∧ (s'.pool d).slots i = (s.pool d).slots i
  free : freeSlots s'.pools d.id = freeSlots s.pools d.id
  slot : ∀ h, taken = some h →
    (s'.pool d).slots h.index = ⟨(((s.pool d).slots h.index).generation + 1) % word, .Free⟩ ∧
      (s'.tasks h.index).successors.closed = true ∧ (s'.tasks h.index).function = none
  resolves : ∀ h, taken = some h → s'.get d h = none ∧
    ∀ g n, (g, n) ∈ s.issued → g.index = h.index → s.releases h.index + 1 < n + word → s'.get d g = none

/-- The state of a submission whose body could not be built in the slot taken. -/
def State.abandon (d : Derived Tid Fn Queues) (t : Tid) (s : State Tid Fn Queues)
    (priority : TaskPriority) (h : TaskHandle) : State Tid Fn Queues :=
  let s := s.setTask h.index ⟨none, 0, priority, .None, 0, (s.tasks h.index).successors.reopen⟩
  let s := (s.hold d h).release d t h
  {s with outstanding_ := s.outstanding_ - 1}

omit [Fintype Tid] in
theorem submitEmplace_throws (htake : s.count.take d t = (s', some h)) (e : Exception) :
    s.submitEmplace d t (.error e) priority = (s'.abandon d t priority h, .error e) := by
  simp only [State.submitEmplace, State.reserve, htake, State.emplace]
  simp [State.abandon, State.setTask, State.hold, State.pool]

omit [DecidableEq Tid] [Fintype Tid] in
theorem get_none {g : TaskHandle} (h : ((s.pool d).slots g.index).generation ≠ g.generation) :
    s.get d g = none := by
  simp [State.get, h]

/-- A generation comes back after 2^32 releases, not before. -/
theorem generation_ne {m n : ℕ} (h : n < m) (hlt : m < n + word) : m % word ≠ n % word := by
  unfold word at *
  omega

omit [Fintype Tid] in
theorem submitEmplace_exhausted (htake : s.count.take d t = (s', none)) (e : Exception) :
    s.submitEmplace d t (.error e) priority =
      ({s' with outstanding_ := s'.outstanding_ - 1}, .error e) := by
  simp only [State.submitEmplace, State.reserve, htake, State.emplace]

/-- What is handed out says what is free. -/
theorem freeSlots_eq (hs : WellFormed d s) (hs' : WellFormed d s')
    (hheld : (s'.pool d).held = (s.pool d).held) (hcap : (s'.pool d).capacity = (s.pool d).capacity) :
    freeSlots s'.pools d.id = freeSlots s.pools d.id := by
  have h := freeSlots_add_held hs.pools hs.idle hs.live
  have h' := freeSlots_add_held hs'.pools hs'.idle hs'.live
  have heq : freeSlots s'.pools d.id + (s.pool d).held.map TaskHandle.index =
      freeSlots s.pools d.id + (s.pool d).held.map TaskHandle.index := by
    rw [← hheld]
    exact h'.trans ((congrArg Multiset.range hcap).trans (hheld ▸ h.symm))
  exact add_right_cancel heq

theorem restored_abandon (hs : WellFormed d s) (htake : s.count.take d t = (s', some h))
    (priority : TaskPriority) :
    Restored d (some h) s (s'.abandon d t priority h) := by
  obtain rfl : (s.count.take d t).1 = s' := by rw [htake]
  have hfound : (s.count.take d t).2 = some h := by rw [htake]
  have hsame := take_same (d := d) (t := t) s.count
  set s' := (s.count.take d t).1
  set held := (s'.setTask h.index ⟨none, 0, priority, .None, 0,
    (s'.tasks h.index).successors.reopen⟩).hold d h with hheld
  have hpool : (s'.abandon d t priority h).pool d = (held.release d t h).pool d := rfl
  have hmem : h ∈ (held.pool d).held := by simp [hheld]
  have hwf : WellFormed d (held.release d t h) := ((hs.count.hold htake).setTask _ _).release hmem
  obtain ⟨hslots, hrheld, hcap⟩ := pool_release (d := d) held t h
  have hheldPool : held.pool d = {s'.pool d with held := h ::ₘ (s'.pool d).held} := by simp [hheld]
  rw [hheldPool] at hslots hrheld hcap
  have hbefore : (s'.pool d).slots = (s.pool d).slots := hsame.slots d.id
  have hnext : (((s'.abandon d t priority h).pool d).slots h.index).generation =
      (s.releases h.index + 1) % word := by
    rw [hpool, hslots]
    simp [hbefore, hs.generation, Nat.add_mod]
  constructor
  case outstanding => exact UInt64.add_sub_cancel ..
  case ready => rfl
  case capacity => exact hcap.trans (hsame.capacity d.id)
  case executions => exact ⟨rfl, rfl⟩
  case others =>
    intro i hi
    have hne := hi h rfl
    refine ⟨?_, ?_⟩
    · have htasks : s'.tasks = s.tasks := rfl
      simp [State.abandon, State.release, State.setTask, State.hold, hne, htasks]
    · rw [hpool, hslots]
      simp [hne, hbefore]
  case free =>
    show freeSlots (held.release d t h).pools d.id = _
    refine freeSlots_eq hs hwf ?_ ?_
    · rw [hrheld, Multiset.erase_cons_head]
      exact hsame.held d.id
    · rw [hcap]
      exact hsame.capacity d.id
  case slot =>
    intro _ hnone
    cases hnone
    refine ⟨?_, ?_, ?_⟩
    · rw [hpool, hslots]
      simp [hbefore]
    · simp [State.abandon, State.release, State.setTask, Successors.reset]
    · simp [State.abandon, State.release, State.setTask]
  case resolves =>
    intro _ hnone
    cases hnone
    refine ⟨get_none ?_, fun g n hg hidx hlt => get_none ?_⟩
    · have hold : h.generation = s.releases h.index % word :=
        (take_found hfound).2.trans (hs.generation h.index)
      rw [hnext, hold]
      exact generation_ne (Nat.lt_succ_self _) (by unfold word; omega)
    · obtain ⟨hgn, hn⟩ := hs.issued g n hg
      rw [hidx] at hn ⊢
      rw [hnext, hgn]
      exact generation_ne (Nat.lt_succ_of_le hn) hlt

/-- With no slot to take, only the count had been touched. -/
theorem restored_exhausted (hs : WellFormed d s) (htake : s.count.take d t = (s', none)) :
    Restored d none s {s' with outstanding_ := s'.outstanding_ - 1} := by
  obtain rfl : (s.count.take d t).1 = s' := by rw [htake]
  have hnone : (s.pools.takeFreeSlot d.preferred_shard t d.id).2 = none :=
    Option.map_eq_none_iff.mp (congrArg Prod.snd htake)
  have hsame := take_same (d := d) (t := t) s.count
  have hidle : ∀ u, (s.count.take d t).1.pools.pc u = .idle := fun u => hsame.pc ▸ hs.idle u
  have hslots : ((s.count.take d t).1.pool d).slots = (s.pool d).slots := hsame.slots d.id
  have hwf : WellFormed d (s.count.take d t).1 :=
    { pools := (exhausted_run (hs.idle t) hs.live hnone (hidle t)).reachable hs.pools
      idle := hidle
      live := hsame.live ▸ hs.live
      capacity := (hsame.capacity d.id).symm ▸ hs.capacity
      generation := fun i =>
        (congrArg (fun slots => (slots i).generation) hslots).trans (hs.generation i)
      issued := hs.issued }
  have hfree : freeSlots (s.count.take d t).1.pools d.id = freeSlots s.pools d.id :=
    freeSlots_eq hs hwf (hsame.held d.id) (hsame.capacity d.id)
  exact
    { outstanding := UInt64.add_sub_cancel ..
      ready := rfl
      capacity := hsame.capacity d.id
      executions := ⟨rfl, rfl⟩
      others := fun i _ => ⟨rfl, congrFun hslots i⟩
      free := hfree
      slot := nofun
      resolves := nofun }

/-- **In-place submission** leaves what plain submission leaves when the body can be built, and
undoes itself when it cannot. -/
theorem submit_emplace_correct (hs : WellFormed d s) (t : Tid) (priority : TaskPriority) :
    (∀ f : Fn, s.submitEmplace d t (.ok f : Except Exception Fn) priority =
      ((s.submit d t ⟨some f, priority, .None, 0⟩).1,
        .ok (s.submit d t ⟨some f, priority, .None, 0⟩).2)) ∧
    ∀ e : Exception, (s.submitEmplace d t (.error e) priority).2 = .error e ∧
      Restored d (s.take d t).2 s (s.submitEmplace d t (.error e) priority).1 := by
  refine ⟨fun f => submitEmplace_eq hs t f priority, fun e => ?_⟩
  rcases htake : s.count.take d t with ⟨s', _ | h⟩
  · have hnone : (s.take d t).2 = none := congrArg Prod.snd htake
    rw [hnone, submitEmplace_exhausted htake e]
    exact ⟨rfl, restored_exhausted hs htake⟩
  · have hsome : (s.take d t).2 = some h := congrArg Prod.snd htake
    rw [hsome, submitEmplace_throws htake e]
    exact ⟨rfl, restored_abandon hs htake priority⟩

end Agree

/-! ### After 2^32 releases of one slot -/

/-- Thread `true` is the only worker; bodies do nothing. -/
def host : Derived Bool Unit (List TaskHandle) where
  id := 1
  preferred_shard _ := ⟨0, by decide⟩
  on_own_worker t := if t then 0 else 0xFFFFFFFF
  enqueue_ready _ h _ ready := ready ++ [h]
  call _ _ _ s := (s, false)

/-- A pool of one slot, without caches. -/
def fresh : State Bool Unit (List TaskHandle) where
  pools := ⟨Function.update (fun _ => .create 0 false) 1 (.create 1 false),
    Function.update (fun _ => false) 1 true, 2, fun _ => ⟨0, []⟩, fun _ => .idle⟩
  tasks _ := ⟨none, 0, .Normal, .None, 0, .initial .none⟩
  ready := []
  outstanding_ := 0
  completed_ := 0
  inline_executions_ := 0
  uncaught_exceptions_ := 0
  acquire_count_ := 0
  release_count_ := 0
  releases _ := 0
  issued := []

/-- One task is submitted, and the worker runs it. -/
def cycle (s : State Bool Unit (List TaskHandle)) : State Bool Unit (List TaskHandle) :=
  let (s, h) := s.submit host false ⟨some (), .Normal, .None, 0⟩
  State.execute host true {s with ready := s.ready.tail} h

theorem wellFormed_fresh : WellFormed host fresh where
  pools := by
    have hinit : Reachable (system host.preferred_shard) ⟨fun _ => .create 0 false, fun _ => false, 1,
        fun _ => ⟨0, []⟩, fun _ => .idle⟩ :=
      .initial ⟨fun _ => rfl, fun _ => rfl, rfl, fun _ => rfl, fun _ => rfl⟩
    exact hinit.step (l := false) (.construct 1 false rfl)
  idle _ := rfl
  live := rfl
  capacity := by decide
  generation _ := rfl
  issued h n hmem := by cases hmem

/-- The theorem for a copy that throws into the only slot. -/
theorem submit_emplace_correct_fresh : Restored host (some ⟨0, 0⟩) fresh
    (fresh.submitEmplace host false (.error () : Except Unit Unit) .Normal).1 := by
  have htake : (fresh.take host false).2 = some ⟨0, 0⟩ := by decide
  have h : Restored host (fresh.take host false).2 fresh
      (fresh.submitEmplace host false (.error () : Except Unit Unit) .Normal).1 :=
    ((submit_emplace_correct wellFormed_fresh false .Normal).2 ()).2
  rwa [htake] at h

/-- After `n` such tasks. -/
structure Worn (n : ℕ) (s : State Bool Unit (List TaskHandle)) : Prop where
  wellFormed : WellFormed host s
  uncached : (s.pool host).cacheBatch = 0
  capacity : (s.pool host).capacity = 1
  shard : (s.pool host).shards (probe ⟨0, by decide⟩ 0) = [0]
  releases : s.releases 0 = n
  issued : 0 < n → (⟨0, 0⟩, 0) ∈ s.issued

variable {n : ℕ} {w : State Bool Unit (List TaskHandle)}

theorem take_worn (h : Worn n w) (t : Bool) :
    w.take host t = ({w with
      pools := w.pools.setShard 1 (probe ⟨0, by decide⟩ 0) []
      acquire_count_ := w.acquire_count_ + 1}, some ⟨0, n % word⟩) := by
  have hbatch : ¬(w.pools.pools host.id).cacheBatch ≠ 0 := not_not.mpr h.uncached
  have hshard : (w.pools.pools host.id).shards (probe (host.preferred_shard t) 0) = [0] := h.shard
  have hfound : w.pools.takeFreeSlot host.preferred_shard t host.id =
      (w.pools.setShard 1 (probe ⟨0, by decide⟩ 0) [], some 0) := by
    rw [Thunderbolt.Task.TaskPool.State.takeFreeSlot, if_neg hbatch]
    simp only [kShardCount, Thunderbolt.Task.TaskPool.State.scanShards, hshard]
    rfl
  have hgen : ((w.pool host).slots 0).generation = n % word := by
    rw [h.wellFormed.generation, h.releases]
  have hslots := (setShard_apart w.pools 1 (probe ⟨0, by decide⟩ 0) [] 1).1
  simp only [State.take, hfound, Option.map_some, State.pool]
  refine congrArg (fun g => ((_ : State Bool Unit (List TaskHandle)), some (TaskHandle.mk 0 g))) ?_
  rw [← hgen]
  exact congrArg (fun slots => (slots 0).generation) hslots

/-- A body that does nothing, for a task nobody waits for. -/
theorem execute_quiet {d : Derived Tid Fn Queues} {s : State Tid Fn Queues} {t : Tid} {h : TaskHandle}
    {f : Fn} (hget : s.get d h = some h.index) (hbody : (s.tasks h.index).function = some f)
    (hcall : ∀ r, d.call f t (d.on_own_worker t) r = (r, false))
    (hnone : (s.tasks h.index).successors.entries = []) :
    s.execute d t h =
      let task := s.tasks h.index
      let r := ((s.setState d h.index .Executing).setTask h.index
        {task with successors := (task.successors.take []).1}).setState d h.index .Completed
      {r.release d t h with
        completed_ := (r.release d t h).completed_ + 1
        outstanding_ := (r.release d t h).outstanding_ - 1} := by
  have htasks : (s.setState d h.index .Executing).tasks = s.tasks := rfl
  simp only [State.execute, hget, htasks, hbody, hcall, State.complete, Successors.take_out, hnone,
    List.foldl_nil]

/-- Without caches the slot goes on the home shard. -/
theorem pool_release_uncached {d : Derived Tid Fn Queues} {s : State Tid Fn Queues} {t : Tid}
    {h : TaskHandle} (hbatch : (s.pool d).cacheBatch = 0) :
    (s.release d t h).pool d = {s.pool d with
      shards := Function.update (s.pool d).shards (d.preferred_shard t)
        (h.index :: (s.pool d).shards (d.preferred_shard t))
      slots := Function.update (s.pool d).slots h.index
        ⟨(((s.pool d).slots h.index).generation + 1) % word, .Free⟩
      held := (s.pool d).held.erase h} := by
  have hpools : ∀ r : Thunderbolt.Task.TaskPool.State Tid, (r.pools d.id).cacheBatch = 0 →
      r.putFreeSlot d.preferred_shard t d.id h.index =
        r.setShard d.id (d.preferred_shard t) (h.index :: (r.pools d.id).shards (d.preferred_shard t)) := by
    intro r hr
    rw [Thunderbolt.Task.TaskPool.State.putFreeSlot, if_neg (not_not.mpr hr)]
  simp only [State.release, pool_setTask]
  rw [State.pool, hpools]
  · simp [State.pool, State.setTask, Thunderbolt.Task.TaskPool.State.setShard,
      Thunderbolt.Task.TaskPool.State.setSlot, Thunderbolt.Task.TaskPool.State.setHeld,
      Thunderbolt.Task.TaskPool.State.setPool]
  · simpa [State.pool, State.setTask, Thunderbolt.Task.TaskPool.State.setSlot,
      Thunderbolt.Task.TaskPool.State.setHeld, Thunderbolt.Task.TaskPool.State.setPool] using hbatch

theorem worn_cycle (h : Worn n w) : Worn (n + 1) (cycle w) := by
  have hcount : Worn n w.count :=
    ⟨h.wellFormed.count, h.uncached, h.capacity, h.shard, h.releases, h.issued⟩
  have htake := take_worn hcount false
  have hsubmit := submit_found hcount.wellFormed htake () .Normal
  have hwf := hcount.wellFormed.enter htake () .Normal
  set taken : State Bool Unit (List TaskHandle) := {w.count with
    pools := w.count.pools.setShard 1 (probe ⟨0, by decide⟩ 0) []
    acquire_count_ := w.count.acquire_count_ + 1} with htaken
  have hpool := pool_enter host taken false () .Normal ⟨0, n % word⟩
  set entered := taken.enter host false () .Normal ⟨0, n % word⟩ with henter
  have htakenPool : taken.pool host = {w.pool host with
      shards := Function.update (w.pool host).shards (probe ⟨0, by decide⟩ 0) []} := by
    simp [htaken, State.pool, host, Thunderbolt.Task.TaskPool.State.setShard,
      Thunderbolt.Task.TaskPool.State.setPool, State.count]
  have hgen : ((w.pool host).slots 0).generation = n % word := by
    rw [h.wellFormed.generation, h.releases]
  set dequeued : State Bool Unit (List TaskHandle) := {entered with ready := entered.ready.tail}
    with hdequeued
  have hwf' : WellFormed host dequeued := ⟨hwf.1, hwf.2, hwf.3, hwf.4, hwf.5, hwf.6⟩
  have hcycle : cycle w = dequeued.execute host true ⟨0, n % word⟩ := by
    simp only [cycle, hsubmit]
    rfl
  have hentered : dequeued.pool host = {w.pool host with
      shards := Function.update (w.pool host).shards (probe ⟨0, by decide⟩ 0) []
      slots := Function.update (w.pool host).slots 0 ⟨n % word, .Queued⟩
      held := ⟨0, n % word⟩ ::ₘ (w.pool host).held} := by
    show entered.pool host = _
    rw [hpool, htakenPool]
    simp [hgen]
  have hmem : ⟨0, n % word⟩ ∈ (dequeued.pool host).held := by simp [hentered]
  have hget : dequeued.get host ⟨0, n % word⟩ = some 0 := by
    refine get_eq rfl ?_ ?_
    · simp [hentered, h.capacity]
    · simp [hentered]
  have htask : dequeued.tasks 0 = ⟨some (), 0, .Normal, .None, 0, (w.tasks 0).successors.reopen⟩ := by
    simp [hdequeued, henter, htaken, State.enter, State.setTask, State.hold, State.setState,
      State.issue, State.enqueueReady, State.count]
  have hbody : (dequeued.tasks 0).function = some () := by rw [htask]
  have hnone : (dequeued.tasks 0).successors.entries = [] := by rw [htask, Successors.entries_reopen]
  rw [hcycle, execute_quiet (t := true) hget hbody (fun _ => rfl) hnone]
  dsimp only
  set completed := ((dequeued.setState host 0 .Executing).setTask 0 {dequeued.tasks 0 with
    successors := ((dequeued.tasks 0).successors.take []).1}).setState host 0 .Completed with hcompleted
  have hcpool : completed.pool host = {w.pool host with
      shards := Function.update (w.pool host).shards (probe ⟨0, by decide⟩ 0) []
      slots := Function.update (w.pool host).slots 0 ⟨n % word, .Completed⟩
      held := ⟨0, n % word⟩ ::ₘ (w.pool host).held} := by
    simp [hcompleted, hentered]
  have hcwf : WellFormed host completed :=
    (((hwf'.setState hmem true .Executing).setTask 0 _).setState (h := ⟨0, n % word⟩)
      (by simpa using hmem) true .Completed)
  have hrwf := hcwf.release (t := true) (h := ⟨0, n % word⟩) (by simp [hcpool])
  have hrpool := pool_release_uncached (t := true) (h := ⟨0, n % word⟩) (s := completed) (d := host)
    (by rw [hcpool]; exact h.uncached)
  rw [hcpool] at hrpool
  refine ⟨⟨hrwf.1, hrwf.2, hrwf.3, hrwf.4, hrwf.5, hrwf.6⟩, ?_, ?_, ?_, ?_, ?_⟩
  · exact (congrArg Pool.cacheBatch hrpool).trans h.uncached
  · exact (congrArg Pool.capacity hrpool).trans h.capacity
  · refine (congrFun (congrArg Pool.shards hrpool) _).trans ?_
    have hhome : host.preferred_shard true = probe ⟨0, by decide⟩ 0 := by decide
    simp [hhome]
  · show Function.update w.releases 0 (w.releases 0 + 1) 0 = n + 1
    simp [h.releases]
  · intro _
    show (⟨0, 0⟩, 0) ∈ (⟨0, n % word⟩, w.releases 0) :: w.issued
    rcases Nat.eq_zero_or_pos n with rfl | hn
    · simp [h.releases]
    · exact List.mem_cons_of_mem _ (h.issued hn)

theorem worn_iterate (n : ℕ) : Worn n (cycle^[n] fresh) := by
  induction n with
  | zero => exact ⟨wellFormed_fresh, by decide, by decide, by decide, rfl, fun h => absurd h (by decide)⟩
  | succ n ih =>
    rw [Function.iterate_succ_apply']
    exact worn_cycle ih

/-- One release short of 2^32, the handle of the first task is stale; when the copy of the next
body throws, it resolves again. -/
theorem revives (h : Worn n w) (hn : n + 1 = word) :
    (w.take host false).2 = some ⟨0, n⟩ ∧ (⟨0, 0⟩, 0) ∈ w.issued ∧ w.get host ⟨0, 0⟩ = none ∧
      (w.submitEmplace host false (.error () : Except Unit Unit) .Normal).1.get host ⟨0, 0⟩ =
        some 0 := by
  have hmod : n % word = n := Nat.mod_eq_of_lt (by omega)
  have hpos : 0 < n := by
    unfold word at hn
    omega
  have hgen : ((w.pool host).slots 0).generation = n := by
    rw [h.wellFormed.generation, h.releases, hmod]
  have hcount : Worn n w.count :=
    ⟨h.wellFormed.count, h.uncached, h.capacity, h.shard, h.releases, h.issued⟩
  have htake := take_worn hcount false
  have hrestored := restored_abandon h.wellFormed htake .Normal
  obtain ⟨hslot, -, -⟩ := hrestored.slot _ rfl
  refine ⟨?_, h.issued hpos, get_none ?_, ?_⟩
  · rw [take_worn h, hmod]
  · show ((w.pool host).slots 0).generation ≠ 0
    omega
  · rw [submitEmplace_throws htake]
    refine get_eq rfl ?_ ?_
    · rw [hrestored.capacity, h.capacity]
      exact Nat.one_pos
    · rw [hslot, hgen, hn]
      exact Nat.mod_self word

theorem first_handle_revives : ∃ s, s = cycle^[word - 1] fresh ∧ WellFormed host s ∧
    ∃ h g n, (s.take host false).2 = some h ∧ (g, n) ∈ s.issued ∧ g.index = h.index ∧
      (s.submitEmplace host false (.error () : Except Unit Unit) .Normal).1.get host g ≠ none := by
  have h := worn_iterate (word - 1)
  obtain ⟨htake, hissued, -, hget⟩ := revives h (by decide)
  exact ⟨_, rfl, h.wellFormed, _, _, _, htake, hissued, rfl, hget ▸ Option.some_ne_none 0⟩

end Thunderbolt.Runtime.Submit
