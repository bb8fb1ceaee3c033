import Thunderbolt.Scheduler.Flow

/-! How long a worker searches in the stealing modes.

Whatever the others do, nothing in `acquire_next` is tried again: a compare-exchange that fails goes on to the
next deque, a batch has an end, and after `kSpinsBeforePark` misses the worker parks. So a worker's own steps
bring it nearer to the end of its search (`State.left`), and nobody else's take it further away. What may hold
it up is the mutex of the global queue, and who holds that is about to let it go. -/
namespace Thunderbolt.Scheduler.Stealing
open Concurrent Executor

variable {n : ℕ} {External : Type}

/-! ### How much is left -/

def callRank : GlobalQueue.Pc → ℕ
  | .reading _ => 3
  | .popping _ | .pushing _ _ => 2
  | .uncounting _ _ | .counting => 1
  | _ => 0

def popRank {α : Type} : AbpDeque.OwnerPc α → ℕ
  | .idle => 6
  | .popStore _ => 5
  | .popTop _ => 4
  | .popRead _ _ => 3
  | .popCas _ _ _ => 2
  | _ => 1

def pushRank {α : Type} : AbpDeque.OwnerPc α → ℕ
  | .idle => 4
  | .pushTop _ _ => 3
  | .pushWrite _ _ => 2
  | _ => 1

def stealRank {α : Type} : AbpDeque.ThiefPc α → ℕ
  | .idle => 4
  | .stealBottom _ => 3
  | .stealRead _ => 2
  | .stealCas _ _ => 1

@[simp] theorem callRank_reading (lowestFirst : Bool) : callRank (.reading lowestFirst) = 3 := rfl

@[simp] theorem callRank_pushing (h : TaskHandle) (p : TaskPriority) : callRank (.pushing h p) = 2 := rfl

/-- Room for a batch, and for a steal from each deque of each of the workers. -/
def base (n : ℕ) : ℕ := 25 * n + 12 * kGlobalDrainBatch + 5

/-- Room for one call of `acquire_next`. -/
def turn (n : ℕ) : ℕ := base n + 60

/-- The calls that may follow this one. -/
def Caller.rank (n : ℕ) : Caller → ℕ
  | loop spins => (kSpinsBeforePark - spins) * turn n
  | wait => 0

/-- The deques left to steal from, with the thief's operations at `t`. -/
def victimsRank (t : DequeId n → AbpDeque.ThiefPc TaskHandle) : List (DequeId n) → ℕ
  | [] => 1
  | x :: rest => 5 * rest.length + 1 + stealRank (t x)

@[simp] theorem victimsRank_nil (t : DequeId n → AbpDeque.ThiefPc TaskHandle) : victimsRank t [] = 1 := rfl

@[simp] theorem victimsRank_cons (t : DequeId n → AbpDeque.ThiefPc TaskHandle) (x : DequeId n)
    (rest : List (DequeId n)) : victimsRank t (x :: rest) = 5 * rest.length + 1 + stealRank (t x) := rfl

/-- At most so many steps are left of the search, with the worker's operations at `g`, `o` and `t`. -/
def Work.rank (g : GlobalQueue.Pc) (o : TaskPriority → AbpDeque.OwnerPc TaskHandle)
    (t : DequeId n → AbpDeque.ThiefPc TaskHandle) : Work n → ℕ
  | looking k => Caller.rank n (.loop k) + base n + 55
  | acquiring c => c.rank n + base n + 54
  | aging c => c.rank n + base n + 50 + callRank g
  | scanning c rest => c.rank n + base n + 4 + 9 * rest.length
  | probing c _ _ rest => c.rank n + base n + 11 + 9 * rest.length
  | popping c p rest => c.rank n + base n + 4 + 9 * rest.length + popRank (o p)
  | draining c => c.rank n + base n + callRank g
  | batching i => 12 * (kGlobalDrainBatch - i) + 4
  | pulling i => 12 * (kGlobalDrainBatch - (i + 1)) + 12 + callRank g
  | stocking i _ p => 12 * (kGlobalDrainBatch - (i + 1)) + 7 + pushRank (o p)
  | restocking => 1 + callRank g
  | stealing c victims => c.rank n + victimsRank t victims
  | executing | enqueueing _ _ | overflowing | exited => 0

/-- Where the worker stands, by its rank. -/
def State.workRank (s : State n External) (w : Fin n) : ℕ :=
  (s.work w).rank (s.global.pc (.inl w)) (fun p => (s.deques (w, p)).owner) fun x => (s.deques x).thief w

def State.left (w : Fin n) (s : State n External) : ℕ :=
  match s.park.sleeper w with
  | .awake => s.workRank w
  | _ => 0

variable {s s' : State n External} {w : Fin n}

theorem left_le : s.left w ≤ s.workRank w := by
  unfold State.left
  split
  · exact le_rfl
  · exact Nat.zero_le _

theorem left_of_awake (h : s.park.sleeper w = .awake) : s.left w = s.workRank w := by
  rw [State.left, h]

theorem stealRank_le {α : Type} (p : AbpDeque.ThiefPc α) : stealRank p ≤ 4 := by
  cases p <;> simp [stealRank]

theorem stealRank_pos {α : Type} (p : AbpDeque.ThiefPc α) : 0 < stealRank p := by
  cases p <;> simp [stealRank]

theorem popRank_le {α : Type} (p : AbpDeque.OwnerPc α) : popRank p ≤ 6 := by
  cases p <;> simp [popRank]

theorem popRank_pos {α : Type} (p : AbpDeque.OwnerPc α) : 0 < popRank p := by
  cases p <;> simp [popRank]

theorem pushRank_le {α : Type} (p : AbpDeque.OwnerPc α) : pushRank p ≤ 4 := by
  cases p <;> simp [pushRank]

theorem pushRank_pos {α : Type} (p : AbpDeque.OwnerPc α) : 0 < pushRank p := by
  cases p <;> simp [pushRank]

theorem victimsRank_le (t : DequeId n → AbpDeque.ThiefPc TaskHandle) (victims : List (DequeId n)) :
    victimsRank t victims ≤ 5 * victims.length + 1 := by
  cases victims with
  | nil => simp
  | cons x rest =>
    have hle := stealRank_le (t x)
    simp only [victimsRank_cons, List.length_cons]
    omega

theorem length_victims_le (w start : Fin n) : (victims w start).length ≤ 5 * n := by
  have hfilter := List.length_filter_le (· ≠ w) ((List.finRange n).map (start + ·))
  rw [List.length_map, List.length_finRange] at hfilter
  have hproduct : (victims w start).length = _ * (scan false).length := List.length_product ..
  rw [hproduct, mul_comm]
  exact Nat.mul_le_mul_left 5 hfilter

theorem length_scan (lowestFirst : Bool) : (scan lowestFirst).length = 5 := by
  cases lowestFirst <;> rfl

/-- A miss leaves one call less. -/
theorem rank_spin {k : ℕ} (h : k + 1 < kSpinsBeforePark) :
    Caller.rank n (.loop k) = Caller.rank n (.loop (k + 1)) + turn n := by
  obtain ⟨j, hj⟩ : ∃ j, kSpinsBeforePark - k = j + 1 := ⟨kSpinsBeforePark - k - 1, by omega⟩
  have hj' : kSpinsBeforePark - (k + 1) = j := by omega
  rw [Caller.rank, Caller.rank, hj, hj', Nat.succ_mul]

/-! ### Operations come nearer to their ends -/

section Operations
variable {k : ℕ} {d d' : AbpDeque.State (Fin n) TaskHandle} {h : TaskHandle}

theorem popRank_lt (hs : AbpDeque.Step k .owner d d') (hin : InPop d'.owner) : popRank d'.owner < popRank d.owner := by
  cases hs with
  | pop hown | popStore hown | popNone hown | popSome hown | popLast hown | popWon hown | popLost hown =>
    simp [hown, popRank]
  | _ => exact hin.elim

theorem pushRank_lt (hs : AbpDeque.Step k .owner d d') (hin : InPush h d'.owner) :
    pushRank d'.owner < pushRank d.owner := by
  cases hs with
  | push _ hown | pushTop hown | pushWrite hown =>
    simp [hown, pushRank]
  | _ => exact hin.elim

theorem stealRank_lt (hs : AbpDeque.Step k (.thief w) d d') (hbusy : d'.thief w ≠ .idle) :
    stealRank (d'.thief w) < stealRank (d.thief w) := by
  cases hs with
  | steal hpc | stealSome hpc | stealRead hpc =>
    simp [AbpDeque.State.thiefAt, hpc, stealRank]
  | stealEmpty | stealWon | stealAbort => exact absurd (Function.update_self ..) hbusy

theorem callRank_lt {Thread : Type*} [DecidableEq Thread] {x y : GlobalQueue.State Thread} {u : Thread}
    (hs : GlobalQueue.Step u x y) : callRank (y.pc u) < callRank (x.pc u) := by
  cases hs with
  | append hpc | count hpc | none hpc | some hpc | empty hpc | take hpc | uncount hpc =>
    simp [GlobalQueue.State.pcAt, hpc, callRank]

end Operations

/-! ### What a step takes off -/

variable [DecidableEq External] {cfg : RuntimeConfig} {a : Act n External}

/-- The worker's step is on its way to the end of its search. -/
theorem left_lt (hcalls : Calls s) (hsearch : Searching w s) (hs : Step cfg a s s') (hown : Own w a) :
    s'.left w < s.left w := by
  obtain ⟨hawake, hsearches⟩ := hsearch
  rw [left_of_awake hawake]
  obtain rfl | rfl := hown
  · cases hs with
    | @park _ _ _ q hw _ hpark =>
      have hzero : ((s.workAt w (.looking 0)).parkAt q).left w = 0 := by
        cases hpark
        simp [State.left, Parking.State.sleeperAt]
      rw [hzero, State.workRank, hw]
      exact Nat.succ_pos _
    | pop hw hd hin =>
      have hlt := popRank_lt hd hin
      refine left_le.trans_lt ?_
      simp [State.workRank, hw, Work.rank, hlt]
    | push hw hd hin =>
      have hlt := pushRank_lt hd hin
      refine left_le.trans_lt ?_
      obtain ⟨i, hw⟩ | hw := pushes_eq hw
      · simp [State.workRank, hw, Work.rank, hlt]
      · simp [hw, Work.searches] at hsearches
    | steal hw hd hbusy =>
      have hlt := stealRank_lt hd hbusy
      refine left_le.trans_lt ?_
      simp [State.workRank, hw, Work.rank, hlt]
    | stop hw | loop hw | drain hw | batched hw | restocked hw | unhelped hw =>
      refine left_le.trans_lt ?_
      simp [State.workRank, hw, Work.rank, GlobalQueue.State.pcAt]
    | popTook hw | stole hw | aged hw | pullMiss hw =>
      refine left_le.trans_lt ?_
      simp [State.workRank, hw, Work.rank]
    | age hw | strict hw | probeEmpty hw =>
      refine left_le.trans_lt ?_
      simp [State.workRank, hw, Work.rank, length_scan, GlobalQueue.State.pcAt]
    | ageMiss hw | probe hw =>
      refine left_le.trans_lt ?_
      simp [State.workRank, hw, Work.rank, length_scan]
      omega
    | @probeSome _ _ _ p _ _ hw | @unprobed _ _ _ p _ hw =>
      have hle := popRank_le (s.deques (w, p)).owner
      refine left_le.trans_lt ?_
      simp [State.workRank, hw, Work.rank]
      omega
    | @popMiss _ _ _ p _ _ hw =>
      have hpos := popRank_pos (s.deques (w, p)).owner
      refine left_le.trans_lt ?_
      simp [State.workRank, hw, Work.rank]
      omega
    | @drainMiss _ _ c start hw =>
      have hvictims := length_victims_le w start
      have hle := victimsRank_le (fun x => (s.deques x).thief w) (victims w start)
      refine left_le.trans_lt ?_
      simp [State.workRank, hw, Work.rank, base]
      omega
    | @stealMiss _ _ c x rest d hw =>
      have hpos := stealRank_pos ((s.deques x).thief w)
      have hle := victimsRank_le (fun y => (Function.update s.deques x d y).thief w) rest
      refine left_le.trans_lt ?_
      simp [State.workRank, hw, Work.rank]
      omega
    | drained hw =>
      refine left_le.trans_lt ?_
      simp [State.workRank, hw, Work.rank, base]
      omega
    | pull hw hi =>
      refine left_le.trans_lt ?_
      simp [State.workRank, hw, Work.rank, GlobalQueue.State.pcAt]
      omega
    | @pulled _ _ _ _ p hw =>
      have hle := pushRank_le (s.deques (w, p)).owner
      refine left_le.trans_lt ?_
      simp [State.workRank, hw, Work.rank]
      omega
    | @stocked _ _ _ _ p _ _ hw | @stockFull _ _ _ _ p _ hw =>
      have hpos := pushRank_pos (s.deques (w, p)).owner
      refine left_le.trans_lt ?_
      simp [State.workRank, hw, Work.rank, GlobalQueue.State.pcAt]
      omega
    | spin hw hspins =>
      have hspin := rank_spin (n := n) hspins
      refine left_le.trans_lt ?_
      simp [State.workRank, hw, Work.rank, hspin, turn]
      omega
    | help hw | finish hw | enqueue _ _ hw | queued hw | overflow hw | overflowed hw =>
      simp [hw, Work.searches] at hsearches
  · cases hs with
    | global hg =>
      have hlt := callRank_lt hg
      refine left_le.trans_lt ?_
      have hcall : (s.work w).calls = true := by
        by_contra hidle
        exact GlobalQueue.pc_mover hg (hcalls w (Bool.eq_false_of_not_eq_true hidle))
      cases hw : s.work w <;> simp [hw, Work.calls, Work.searches] at hcall hsearches <;>
        simp [State.workRank, hw, Work.rank, hlt]

theorem thief_other (hs : Step cfg a s s') (ha : a ≠ .work w) (x : DequeId n) :
    (s'.deques x).thief w = (s.deques x).thief w := by
  have hmove : ∀ {y d m}, AbpDeque.Step cfg.capacityBits m (s.deques y) d → m ≠ .thief w →
      (Function.update s.deques y d x).thief w = (s.deques x).thief w := by
    intro y d m hd hm
    rcases eq_or_ne x y with rfl | hne
    · rw [Function.update_self, AbpDeque.thief_other hd hm]
    · rw [Function.update_of_ne hne]
  have htheirs : ∀ {v : Fin n}, (.work v : Act n External) ≠ .work w →
      AbpDeque.Mover.thief v ≠ AbpDeque.Mover.thief w := by
    intro v hv heq
    cases heq
    exact hv rfl
  cases hs with
  | pop _ hd | popTook _ hd | popMiss _ hd | push _ hd | stocked _ hd | stockFull _ hd | queued _ hd
  | overflow _ hd => exact hmove hd nofun
  | steal _ hd | stole _ hd | stealMiss _ hd => exact hmove hd (htheirs ha)
  | _ => rfl

/-- Nobody else's step takes it further away. -/
theorem left_other (hsearch : Searching w s) (hs : Step cfg a s s') (hown : ¬Own w a) : s'.left w ≤ s.left w := by
  obtain ⟨hwork, hglobal⟩ := not_or.mp hown
  refine left_le.trans_eq ?_
  rw [left_of_awake hsearch.1]
  simp only [State.workRank, work_other hs hwork, global_other hs hwork hglobal, owner_other hs (x := (w, _)) hwork,
    thief_other hs hwork]

/-! ### Operations go on -/

section Operations
variable {k : ℕ} {d : AbpDeque.State (Fin n) TaskHandle} {h : TaskHandle} {v : Fin n}

theorem pop_goes_on (hfits : d.owner = .idle ∨ InPop d.owner) : ∃ d', AbpDeque.Step k .owner d d' ∧
    (InPop d'.owner ∨ d'.owner = .idle ∧ (d'.returned = d.returned ∨ ∃ r, d'.returned = d.returned ++ [r])) := by
  cases hown : d.owner with
  | idle => exact ⟨_, .pop hown, .inl trivial⟩
  | popStore b => exact ⟨_, .popStore hown, .inl trivial⟩
  | popTop b =>
    by_cases htop : d.top > b
    · exact ⟨_, .popNone hown htop, .inl trivial⟩
    · exact ⟨_, .popSome hown htop, .inl trivial⟩
  | popEmpty b => exact ⟨_, .popEmpty hown, .inr ⟨rfl, .inl rfl⟩⟩
  | popRead b t =>
    by_cases hlast : t = b
    · exact ⟨_, .popLast hown hlast, .inl trivial⟩
    · exact ⟨_, .popTake hown hlast, .inr ⟨rfl, .inr ⟨_, rfl⟩⟩⟩
  | popCas b t out =>
    by_cases htop : d.top = t
    · exact ⟨_, .popWon hown htop, .inl trivial⟩
    · exact ⟨_, .popLost hown htop, .inl trivial⟩
  | popRestore b out won =>
    cases won with
    | true => exact ⟨_, .popReturn hown, .inr ⟨rfl, .inr ⟨_, rfl⟩⟩⟩
    | false => exact ⟨_, .popFail hown, .inr ⟨rfl, .inl rfl⟩⟩
  | _ =>
    rw [hown] at hfits
    exact hfits.elim nofun False.elim

theorem push_goes_on (hfits : d.owner = .idle ∨ InPush h d.owner) : ∃ d', AbpDeque.Step k .owner d d' ∧
    (InPush h d'.owner ∨ d'.owner = .idle ∧ (d'.pushed = d.pushed ∨ ∃ x, d'.pushed = d.pushed ++ [x])) := by
  cases hown : d.owner with
  | idle => exact ⟨_, .push h hown, .inl rfl⟩
  | pushTop u b =>
    rw [hown] at hfits
    obtain rfl : u = h := hfits.resolve_left nofun
    by_cases hfull : b - d.top ≥ 2 ^ k
    · exact ⟨_, .pushFull hown hfull, .inr ⟨rfl, .inl rfl⟩⟩
    · exact ⟨_, .pushTop hown hfull, .inl rfl⟩
  | pushWrite u b =>
    rw [hown] at hfits
    obtain rfl : u = h := hfits.resolve_left nofun
    exact ⟨_, .pushWrite hown, .inl rfl⟩
  | pushPublish u b => exact ⟨_, .pushPublish hown, .inr ⟨rfl, .inr ⟨_, rfl⟩⟩⟩
  | _ =>
    rw [hown] at hfits
    exact hfits.elim nofun False.elim

theorem steal_goes_on : ∃ d', AbpDeque.Step k (.thief v) d d' ∧ (d'.thief v ≠ .idle ∨
    d'.thief v = .idle ∧ (d'.returned = d.returned ∨ ∃ r, d'.returned = d.returned ++ [r])) := by
  have hat : ∀ (d : AbpDeque.State (Fin n) TaskHandle) p, (d.thiefAt v p).thief v = p :=
    fun _ _ => Function.update_self ..
  cases hpc : d.thief v with
  | idle => exact ⟨_, .steal hpc, .inl (by rw [hat]; nofun)⟩
  | stealBottom i =>
    by_cases hempty : i ≥ d.bottom
    · exact ⟨_, .stealEmpty hpc hempty, .inr ⟨hat .., .inl rfl⟩⟩
    · exact ⟨_, .stealSome hpc hempty, .inl (by rw [hat]; nofun)⟩
  | stealRead i => exact ⟨_, .stealRead hpc, .inl (by rw [hat]; nofun)⟩
  | stealCas i out =>
    by_cases htop : d.top = i
    · exact ⟨_, .stealWon hpc htop, .inr ⟨hat .., .inr ⟨_, rfl⟩⟩⟩
    · exact ⟨_, .stealAbort hpc htop, .inr ⟨hat .., .inl rfl⟩⟩

variable {Thread : Type*} [DecidableEq Thread] {x : GlobalQueue.State Thread} {t u : Thread}

/-- Who holds the mutex of the global queue lets it go. -/
theorem mutex_released (hbalanced : GlobalQueue.Balanced x) (hmutex : x.mutex = some u) :
    ∃ x', GlobalQueue.Step u x x' ∧ x'.mutex = none := by
  have hheld := hbalanced.held u hmutex
  cases hpc : x.pc u with
  | counting => exact ⟨_, .count hpc, rfl⟩
  | uncounting => exact ⟨_, .uncount hpc, rfl⟩
  | _ =>
    rw [hpc] at hheld
    exact hheld.elim

theorem call_goes_on (hcall : callRank (x.pc t) ≠ 0) : (∃ x', GlobalQueue.Step t x x') ∨ ∃ u, x.mutex = some u := by
  cases hpc : x.pc t with
  | reading l =>
    by_cases hcount : x.count = 0
    · exact .inl ⟨_, .none hpc hcount⟩
    · exact .inl ⟨_, .some hpc hcount⟩
  | counting => exact .inl ⟨_, .count hpc⟩
  | uncounting => exact .inl ⟨_, .uncount hpc⟩
  | pushing =>
    cases hmutex : x.mutex with
    | some u => exact .inr ⟨u, rfl⟩
    | none => exact .inl ⟨_, .append hpc hmutex⟩
  | popping l =>
    cases hmutex : x.mutex with
    | some u => exact .inr ⟨u, rfl⟩
    | none =>
      cases hpop : x.queues.pop l with
      | none => exact .inl ⟨_, .empty hpc hmutex hpop⟩
      | some r => exact .inl ⟨_, .take hpc hmutex hpop⟩
  | idle | pushed | popped =>
    rw [hpc] at hcall
    exact absurd rfl hcall

end Operations

/-! ### The search goes on -/

/-- The call in progress on the global queue is a pop. -/
def InGlobalPop : GlobalQueue.Pc → Prop
  | .reading _ | .popping _ | .uncounting _ _ | .popped _ => True
  | _ => False

/-- It is a push. -/
def InGlobalPush : GlobalQueue.Pc → Prop
  | .pushing _ _ | .counting | .pushed => True
  | _ => False

/-- The call in progress is one the worker makes there. -/
def Work.Called : Work n → GlobalQueue.Pc → Prop
  | aging _, g | draining _, g | pulling _, g => InGlobalPop g
  | restocking, g | overflowing, g => InGlobalPush g
  | _, _ => True

def Calling (s : State n External) : Prop :=
  ∀ w, (s.work w).Called (s.global.pc (.inl w))

theorem called_step {Thread : Type*} [DecidableEq Thread] {x y : GlobalQueue.State Thread} {t : Thread} {p : Work n}
    (hs : GlobalQueue.Step t x y) (h : p.Called (x.pc t)) : p.Called (y.pc t) := by
  have hkeeps : (InGlobalPop (x.pc t) → InGlobalPop (y.pc t)) ∧ (InGlobalPush (x.pc t) → InGlobalPush (y.pc t)) := by
    cases hs with
    | append hpc | count hpc | none hpc | some hpc | empty hpc | take hpc | uncount hpc =>
      simp [hpc, GlobalQueue.State.pcAt, InGlobalPop, InGlobalPush]
  cases p <;> first | exact hkeeps.1 h | exact hkeeps.2 h | trivial

theorem calling_step (h : Calling s) (hs : Step cfg a s s') : Calling s' := by
  intro v
  by_cases ha : a = .work v
  · subst ha
    cases hs with
    | pop | push | steal => exact h v
    | _ => simp [Work.Called, InGlobalPop, InGlobalPush, GlobalQueue.State.pcAt]
  · rw [work_other hs ha]
    by_cases hg : a = .global (.inl v)
    · subst hg
      cases hs with
      | global hg => exact called_step hg (h v)
    · rw [global_other hs ha hg]
      exact h v

/-- A worker that searches can go on, or a thread is about to let go of the mutex of the global queue. -/
def CanGoOn (cfg : RuntimeConfig) (s : State n External) (w : Fin n) : Prop :=
  (∃ a s', Own w a ∧ Step cfg a s s') ∨
    ∃ t s', s.global.mutex = some t ∧ Step cfg (.global t) s s' ∧ s'.global.mutex = none

theorem CanGoOn.work (hs : Step cfg (.work w) s s') : CanGoOn cfg s w :=
  .inl ⟨_, _, .inl rfl, hs⟩

theorem CanGoOn.call (h : GlobalQueue.Balanced s.global)
    (hcall : callRank (s.global.pc (.inl w)) ≠ 0) : CanGoOn cfg s w := by
  obtain ⟨x, hx⟩ | ⟨t, ht⟩ := call_goes_on hcall
  · exact .inl ⟨_, _, .inr rfl, .global hx⟩
  · obtain ⟨x, hx, hmutex⟩ := mutex_released h ht
    exact .inr ⟨t, _, ht, .global hx, hmutex⟩

theorem CanGoOn.pop (h : GlobalQueue.Balanced s.global)
    (hpop : InGlobalPop (s.global.pc (.inl w)))
    (hreturns : ∀ r, s.global.pc (.inl w) = .popped r → CanGoOn cfg s w) : CanGoOn cfg s w := by
  cases hpc : s.global.pc (.inl w) with
  | popped r => exact hreturns r hpc
  | reading | popping | uncounting => exact .call h (by rw [hpc]; nofun)
  | _ =>
    rw [hpc] at hpop
    exact hpop.elim

/-! ### Over every run -/

theorem caller_rank_le (c : Caller) : c.rank n ≤ kSpinsBeforePark * turn n := by
  cases c with
  | loop spins => exact Nat.mul_le_mul_right _ (Nat.sub_le ..)
  | wait => exact Nat.zero_le _

variable {m : ℕ} {s s' : State (m + 1) External} {w : Fin (m + 1)} {k : ℕ}

theorem steps_le (h : Reachable (system cfg m External) s)
    (hsteps : Steps (system cfg m External) (Own w) (Searching w) s k s') : k ≤ s.workRank w := by
  have hrank : k + s'.left w ≤ s.left w := hsteps.le_rank
    (fun _ _ _ hreach hsearch hs hown => left_lt (Held.reachable hreach).inv.calls hsearch hs hown)
    (fun _ _ _ _ hsearch hs hown => left_other hsearch hs hown) h
  calc k ≤ k + s'.left w := Nat.le_add_right ..
    _ ≤ s.left w := hrank
    _ ≤ s.workRank w := left_le

/-- **A search ends**: whatever the others do, a worker makes a bounded number of steps before it has a task,
parks or leaves. -/
theorem search_ends (h : Reachable (system cfg m External) s) {spins : ℕ} (hw : s.work w = .looking spins)
    (hsteps : Steps (system cfg m External) (Own w) (Searching w) s k s') :
    k ≤ (kSpinsBeforePark + 1) * turn (m + 1) := by
  have hle := steps_le h hsteps
  have hcaller := caller_rank_le (n := m + 1) (.loop spins)
  rw [State.workRank, hw] at hle
  simp only [Work.rank] at hle
  rw [Nat.succ_mul]
  simp only [turn] at hcaller ⊢
  omega

/-- A wait that helps calls `acquire_next` once. -/
theorem wait_search_ends (h : Reachable (system cfg m External) s) (hw : s.work w = .acquiring .wait)
    (hsteps : Steps (system cfg m External) (Own w) (Searching w) s k s') : k ≤ turn (m + 1) := by
  have hle := steps_le h hsteps
  rw [State.workRank, hw] at hle
  simp only [Work.rank, Caller.rank] at hle
  simp only [turn]
  omega

theorem Calling.reachable (h : Reachable (system cfg m External) s) :
    Calling s := by
  apply h.invariant (P := Calling)
  · intro s hi w
    rw [hi.work w]
    trivial
  · exact fun _ _ _ _ hcalling hs => calling_step hcalling hs

/-- **Nothing holds up a worker that searches** but the mutex of the global queue, and the thread that has that
is about to let it go. -/
theorem search_goes_on (h : Reachable (system cfg m External) s) (hsearch : Searching w s) : CanGoOn cfg s w := by
  have hheld := Held.reachable h
  have hcalled := Calling.reachable h w
  have hbalanced := hheld.inv.balanced
  obtain ⟨hawake, hsearches⟩ := hsearch
  cases hw : s.work w with
  | looking spins =>
    cases hrunning : s.park.running with
    | true => exact .work (.loop hw hawake hrunning)
    | false => exact .work (.stop hw hawake hrunning)
  | acquiring c =>
    cases hlowest : s.lowestFirst cfg w with
    | true => exact .work (.age hw hlowest)
    | false => exact .work (.strict hw hlowest)
  | aging c =>
    rw [hw] at hcalled
    refine .pop hbalanced hcalled fun r hpc => ?_
    cases r with
    | none => exact .work (.ageMiss hw hpc)
    | some x => exact .work (.aged hw hpc)
  | scanning c rest =>
    cases rest with
    | nil => exact .work (.drain hw)
    | cons p rest =>
      cases hskip : cfg.skipEmptyDeques with
      | true => exact .work (.probe hw hskip)
      | false => exact .work (.unprobed hw hskip)
  | probing c p b rest =>
    by_cases hsome : b - (s.deques (w, p)).top > 0
    · exact .work (.probeSome hw hsome)
    · exact .work (.probeEmpty hw hsome)
  | popping c p rest =>
    have hfits := hheld.owned w p (by rw [hw]; rfl)
    rw [hw] at hfits
    obtain ⟨d, hd, hin | ⟨hidle, hreturned | ⟨r, hreturned⟩⟩⟩ := pop_goes_on hfits
    · exact .work (.pop hw hd hin)
    · exact .work (.popMiss hw hd hidle hreturned)
    · exact .work (.popTook hw hd hidle hreturned)
  | draining c =>
    rw [hw] at hcalled
    refine .pop hbalanced hcalled fun r hpc => ?_
    cases r with
    | none => exact .work (.drainMiss w hw hpc)
    | some x => exact .work (.drained hw hpc)
  | batching i =>
    by_cases hi : i < kGlobalDrainBatch
    · exact .work (.pull hw hi)
    · exact .work (.batched hw hi)
  | pulling i =>
    rw [hw] at hcalled
    refine .pop hbalanced hcalled fun r hpc => ?_
    cases r with
    | none => exact .work (.pullMiss hw hpc)
    | some x => exact .work (.pulled hw hpc)
  | stocking i y p =>
    have hfits := hheld.owned w p (by rw [hw]; rfl)
    rw [hw] at hfits
    obtain ⟨d, hd, hin | ⟨hidle, hpushed | ⟨x, hpushed⟩⟩⟩ := push_goes_on hfits
    · exact .work (.push (by rw [hw]; rfl) hd hin)
    · exact .work (.stockFull hw hd hidle hpushed)
    · exact .work (.stocked hw hd hidle hpushed)
  | restocking =>
    rw [hw] at hcalled
    cases hpc : s.global.pc (.inl w) with
    | pushed => exact .work (.restocked hw hpc)
    | pushing | counting => exact .call hbalanced (by rw [hpc]; nofun)
    | _ =>
      rw [hpc] at hcalled
      exact hcalled.elim
  | stealing c victims =>
    cases victims with
    | nil =>
      cases c with
      | wait => exact .work (.unhelped hw)
      | loop spins =>
        by_cases hspins : spins + 1 < kSpinsBeforePark
        · exact .work (.spin hw hspins)
        · exact .work (.park hw hspins (.park hawake))
    | cons x rest =>
      obtain ⟨d, hd, hbusy | ⟨hidle, hreturned | ⟨r, hreturned⟩⟩⟩ := steal_goes_on
      · exact .work (.steal hw hd hbusy)
      · exact .work (.stealMiss hw hd hidle hreturned)
      · exact .work (.stole hw hd hidle hreturned)
  | executing | enqueueing | overflowing | exited =>
    rw [hw] at hsearches
    cases hsearches

/-! ### A worker that looks for work -/

open Single in
/-- The worker misses 63 times; then a thread outside submits a task, and it takes that. -/
theorem search_ends_taking : ∃ s k s', Reachable (system config 0 Unit) s ∧ s.work 0 = .looking 0 ∧
    Steps (system config 0 Unit) (Own 0) (Searching 0) s k s' ∧ s'.work 0 = .executing ∧ k = 1028 ∧
      k ≤ (kSpinsBeforePark + 1) * turn 1 := by
  have h : Steps (system config 0 Unit) (Own 0) (Searching 0) idle (16 * 63) _ :=
    (spin_run starved rfl rfl rfl rfl rfl (by decide : 0 + 63 < _)).of_restrict.mono fun _ => Hunting.searching
  have h := h.other (l := Act.submit ()) ⟨rfl, rfl⟩ (.submit ⟨0, 0⟩ .Normal rfl rfl) (by simp [Own])
  have h := h.other (l := Act.global (.inr ())) ⟨rfl, rfl⟩
    (.global (.append (h := ⟨0, 0⟩) (p := .Normal) rfl rfl)) (by simp [Own])
  have h := h.other (l := Act.global (.inr ())) ⟨rfl, rfl⟩ (.global (.count rfl)) (by simp [Own])
  have h := h.trans ((drain_run (k := 63) (by exact ⟨rfl, rfl, fun _ => Int.lt_irrefl 0⟩) rfl rfl (by rfl) (by rfl)).of_restrict.mono
    fun _ => Hunting.searching)
  have h := h.own (l := Act.global (.inl 0)) ⟨rfl, rfl⟩ (.global (.some (pc_facing ..) (by decide))) (.inr rfl)
  have h := h.own (l := Act.global (.inl 0)) ⟨rfl, rfl⟩
    (.global (.take (h := ⟨0, 0⟩) (p := .Normal) rfl rfl rfl)) (.inr rfl)
  have h := h.own (l := Act.global (.inl 0)) ⟨rfl, rfl⟩ (.global (.uncount rfl)) (.inr rfl)
  have h := h.own (l := Act.work 0) ⟨rfl, rfl⟩ (.drained (c := .loop 63) (x := (⟨0, 0⟩, .Normal)) rfl rfl) (.inl rfl)
  have h := h.own (l := Act.work 0) ⟨rfl, rfl⟩ (.pull (i := 1) rfl (by decide)) (.inl rfl)
  have h := h.own (l := Act.global (.inl 0)) ⟨rfl, rfl⟩ (.global (.none (l := false) rfl rfl)) (.inr rfl)
  have h := h.own (l := Act.work 0) ⟨rfl, rfl⟩ (.pullMiss (i := 1) rfl rfl) (.inl rfl)
  exact ⟨_, 1028, _, looking, rfl, h, rfl, rfl, search_ends looking rfl h⟩

open Single in
/-- It has seen a task in the global queue, and another is being put there. -/
theorem search_goes_on_popping : ∃ s : State 1 (Fin 2), Reachable (system config 0 (Fin 2)) s ∧
    Searching 0 s ∧ s.global.pc (.inl 0) = .popping false ∧ s.global.mutex = some (.inr 1) ∧
      CanGoOn config s 0 := by
  have h : Reachable (system config 0 (Fin 2)) idle := looking
  have h := h.step (l := Act.submit 0) (.submit ⟨0, 0⟩ .Normal rfl rfl)
  have h := h.step (l := Act.global (.inr 0)) (.global (.append (h := ⟨0, 0⟩) (p := .Normal) rfl rfl))
  have h := h.step (l := Act.global (.inr 0)) (.global (.count rfl))
  have h := h.step (l := Act.submit 1) (.submit ⟨1, 0⟩ .Normal rfl rfl)
  have h := (drain_run (k := 0) (by exact ⟨rfl, rfl, fun _ => Int.lt_irrefl 0⟩) rfl rfl (by rfl) (by rfl)).of_restrict.reachable h
  have h := h.step (l := Act.global (.inl 0)) (.global (.some (pc_facing ..) (by decide)))
  have h := h.step (l := Act.global (.inr 1)) (.global (.append (h := ⟨1, 0⟩) (p := .Normal) rfl rfl))
  exact ⟨_, h, ⟨rfl, rfl⟩, rfl, rfl, search_goes_on h ⟨rfl, rfl⟩⟩

end Thunderbolt.Scheduler.Stealing
