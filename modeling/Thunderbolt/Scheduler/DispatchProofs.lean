import Mathlib.Algebra.Group.Fin.Basic
import Mathlib.Algebra.Order.Group.Multiset
import Mathlib.Data.Fintype.Sum
import Mathlib.Data.Fintype.Prod
import Thunderbolt.Scheduler.AcquireProofs
import Thunderbolt.Scheduler.Dispatch

/-! Dispatch conserves tasks.

Each step moves at most one task, between two places (`step_kept`), so what was
enqueued is what the places hold (`Conserved.total`), and a handle enqueued once is
at one place, once. A worker that nobody disturbs leaves behind it only empty
queues, which is what an `acquire_next` that returns nothing has seen. -/
namespace Thunderbolt.Scheduler.Dispatch
open Concurrent Executor Stealing Acquire

instance : Fintype TaskPriority := .ofList (scan false) (mem_scan false)

instance {n : ℕ} {External : Type} [Fintype External] : Fintype (Place n External) :=
  .ofEquiv (TaskPriority ⊕ DequeId n ⊕ Fin n × TaskPriority ⊕ (Fin n ⊕ External) ⊕ Unit)
    { toFun
        | .inl p => .global p
        | .inr (.inl x) => .deque x
        | .inr (.inr (.inl (w, p))) => .inbox w p
        | .inr (.inr (.inr (.inl t))) => .thread t
        | .inr (.inr (.inr (.inr ()))) => .returned
      invFun
        | .global p => .inl p
        | .deque x => .inr (.inl x)
        | .inbox w p => .inr (.inr (.inl (w, p)))
        | .thread t => .inr (.inr (.inr (.inl t)))
        | .returned => .inr (.inr (.inr (.inr ())))
      left_inv x := by rcases x with p | x | ⟨w, p⟩ | t | _ <;> rfl
      right_inv x := by cases x <;> rfl }

variable {n : ℕ} {External : Type} [DecidableEq External] {mode : Mode}
  {s s' : State n External} {t : Fin n ⊕ External} {w : Fin n}

/-! ### What each update does to the places -/

namespace State

theorem kept_pcAt (s : State n External) (t : Fin n ⊕ External) (p : Pc n) :
    (s.pcAt t p).kept = Function.update s.kept (.thread t) p.holds := by
  funext x
  by_cases hx : x = .thread t
  · subst hx
    simp [kept, pcAt]
  · rw [Function.update_of_ne hx]
    cases x with
    | thread u =>
      have : u ≠ t := fun h => hx (h ▸ rfl)
      simp [kept, pcAt, this]
    | _ => rfl

/-- A counter at which the thread holds what it held. -/
theorem kept_pcAt_same {p : Pc n} (h : p.holds = (s.pc t).holds) : (s.pcAt t p).kept = s.kept := by
  rw [kept_pcAt, h]
  exact Function.update_eq_self _ _

theorem kept_globalAt (s : State n External) (p : TaskPriority) (l : List TaskHandle) :
    (s.globalAt (Function.update s.global p l)).kept =
      Function.update s.kept (.global p) (l.map (·, p) : List Entry) := by
  funext x
  by_cases hx : x = .global p
  · subst hx
    simp [kept, globalAt]
  · rw [Function.update_of_ne hx]
    cases x with
    | global q =>
      have : q ≠ p := fun h => hx (h ▸ rfl)
      simp [kept, globalAt, this]
    | _ => rfl

theorem kept_dequeAt (s : State n External) (x : DequeId n) (d : List TaskHandle) :
    (s.dequeAt x d).kept = Function.update s.kept (.deque x) (d.map (·, x.2) : List Entry) := by
  funext y
  by_cases hy : y = .deque x
  · subst hy
    simp [kept, dequeAt]
  · rw [Function.update_of_ne hy]
    cases y with
    | deque z =>
      have : z ≠ x := fun h => hy (h ▸ rfl)
      simp [kept, dequeAt, this]
    | _ => rfl

theorem kept_inboxAt (s : State n External) (w : Fin n) (p : TaskPriority) (l : List TaskHandle) :
    (s.inboxAt w (Function.update (s.inbox w) p l)).kept =
      Function.update s.kept (.inbox w p) (l.map (·, p) : List Entry) := by
  funext x
  by_cases hx : x = .inbox w p
  · subst hx
    simp [kept, inboxAt]
  · rw [Function.update_of_ne hx]
    cases x with
    | inbox v q =>
      by_cases hv : v = w
      · subst hv
        have : q ≠ p := fun h => hx (h ▸ rfl)
        simp [kept, inboxAt, this]
      · simp [kept, inboxAt, hv]
    | _ => rfl

theorem kept_hand (s : State n External) (w : Fin n) (x : Entry) :
    (s.hand w x).kept =
      Function.update (Function.update s.kept (.thread (.inl w)) 0) .returned (x ::ₘ s.handed) := by
  have hhanded : ({s with handed := x ::ₘ s.handed} : State n External).kept =
      Function.update s.kept .returned (x ::ₘ s.handed) := by
    funext y
    cases y <;> simp [kept]
  rw [hand, kept_pcAt, hhanded, Function.update_comm (by simp)]
  rfl

/-- A worker that held nothing. -/
theorem kept_hand_empty {x : Entry} (h : (s.pc (.inl w)).holds = 0) :
    (s.hand w x).kept = Function.update s.kept .returned (x ::ₘ s.handed) := by
  have hsame : Function.update s.kept (.thread (.inl w)) 0 = s.kept := by
    rw [← h]
    exact Function.update_eq_self _ _
  rw [kept_hand, hsame]

end State

/-! ### One step -/

/-- What a step does to the places: a call brings one task in, and every other step
moves at most one. -/
inductive Moves (s s' : State n External) : Prop where
  | enters (x : Entry) (t : Fin n ⊕ External) : s'.enqueued = x ::ₘ s.enqueued →
      s'.kept = Function.update s.kept (.thread t) ({x} + s.kept (.thread t)) → Moves s s'
  | moves : s'.enqueued = s.enqueued → Transfer s.kept s'.kept → Moves s s'

namespace Moves

/-- Nothing moves. -/
theorem of_same (henq : s'.enqueued = s.enqueued) (h : s'.kept = s.kept) : Moves s s' :=
  .moves henq (h ▸ .same)

/-- From the place `a` to the place `b`. -/
theorem of_update {a b : Place n External} {x y : Multiset Entry} (henq : s'.enqueued = s.enqueued)
    (h : s'.kept = Function.update (Function.update s.kept a x) b y) (hab : a ≠ b)
    (hsum : x + y = s.kept a + s.kept b) : Moves s s' :=
  .moves henq (h ▸ .update hab hsum)

end Moves

/-! ### Putting down and taking -/

theorem coe_append (l : List TaskHandle) (x : Entry) :
    (((l ++ [x.1]).map (·, x.2) : List Entry) : Multiset Entry) = x ::ₘ ↑(l.map (·, x.2)) := by
  rw [List.map_append, List.map_singleton, ← Multiset.coe_add, add_comm]
  rfl

namespace State

theorem kept_push (s : State n External) (x : Entry) :
    (s.globalAt (s.global.push x.1 x.2)).kept =
      Function.update s.kept (.global x.2) (x ::ₘ s.kept (.global x.2)) := by
  rw [ReadyQueues.push, kept_globalAt, coe_append]
  rfl

theorem kept_stock (s : State n External) (w : Fin n) (x : Entry) :
    (s.dequeAt (w, x.2) (s.deques (w, x.2) ++ [x.1])).kept =
      Function.update s.kept (.deque (w, x.2)) (x ::ₘ s.kept (.deque (w, x.2))) := by
  rw [kept_dequeAt, coe_append]
  rfl

theorem kept_deliver (s : State n External) (w : Fin n) (x : Entry) :
    (s.inboxAt w ((s.inbox w).push x.1 x.2)).kept =
      Function.update s.kept (.inbox w x.2) (x ::ₘ s.kept (.inbox w x.2)) := by
  rw [ReadyQueues.push, kept_inboxAt, coe_append]
  rfl

theorem kept_pop {g : ReadyQueues} {lowestFirst : Bool} {h : TaskHandle} {p : TaskPriority}
    (hpop : s.global.pop lowestFirst = some (h, p, g)) :
    ∃ rest, s.kept (.global p) = (h, p) ::ₘ rest ∧
      (s.globalAt g).kept = Function.update s.kept (.global p) rest := by
  obtain ⟨rest, hq, rfl⟩ := ReadyQueues.pop_some hpop
  exact ⟨_, by simp [kept, hq], kept_globalAt s p rest⟩

end State

/-- A thread puts a task down at `a`. -/
theorem put_moves {u : State n External} {a : Place n External} {x : Entry} {p : Pc n}
    (hu : u.kept = Function.update s.kept a (x ::ₘ s.kept a)) (ha : a ≠ .thread t)
    (henq : u.enqueued = s.enqueued) (hpc : (s.pc t).holds = {x} + p.holds) :
    Moves s (u.pcAt t p) := by
  have hkept := State.kept_pcAt u t p
  rw [hu] at hkept
  refine .of_update henq hkept ha ?_
  show _ = _ + (s.pc t).holds
  rw [hpc]
  simp

/-- A thread takes a task at `a`. -/
theorem take_moves {u : State n External} {a : Place n External} {x : Entry} {rest : Multiset Entry}
    {p : Pc n} (hx : s.kept a = x ::ₘ rest) (hu : u.kept = Function.update s.kept a rest)
    (ha : a ≠ .thread t) (henq : u.enqueued = s.enqueued) (hpc : p.holds = {x} + (s.pc t).holds) :
    Moves s (u.pcAt t p) := by
  have hkept := State.kept_pcAt u t p
  rw [hu] at hkept
  refine .of_update henq hkept ha ?_
  show _ = _ + (s.pc t).holds
  rw [hpc, hx]
  simp

/-- A worker with free hands is handed a task that was at `a`. -/
theorem hand_moves {u : State n External} {a : Place n External} {x : Entry} {rest : Multiset Entry}
    (hx : s.kept a = x ::ₘ rest) (hu : u.kept = Function.update s.kept a rest) (ha : a ≠ .returned)
    (hfree : (u.pc (.inl w)).holds = 0) (hhanded : u.handed = s.handed)
    (henq : u.enqueued = s.enqueued) : Moves s (u.hand w x) := by
  have hkept := State.kept_hand_empty (x := x) hfree
  rw [hu] at hkept
  refine .of_update henq hkept ha ?_
  show _ = _ + s.handed
  rw [hx, hhanded]
  simp

theorem step_moves {a : Act n External} (h : Step mode a s s') : Moves s s' := by
  cases h with
  | @enqueue _ t h p hpc =>
    refine .enters (h, p) t rfl ?_
    show _ = Function.update s.kept (.thread t) ({(h, p)} + (s.pc t).holds)
    rw [State.kept_pcAt, hpc]
    rfl
  | assign _ _ hpc | full _ hpc | acquire hpc | inboxEmpty _ hpc | strict _ hpc | ageMiss _ hpc
  | skip _ hpc | probed _ hpc | popMiss hpc | drainMiss _ _ hpc | pullMiss hpc | batched hpc
  | stockFull _ hpc | stealMiss hpc | stealAbort hpc | missed hpc | resume hpc =>
    exact .of_same rfl (State.kept_pcAt_same (by rw [hpc]; rfl))
  | deliver hpc => exact put_moves (State.kept_deliver _ _ _) nofun rfl (by rw [hpc]; rfl)
  | queued _ hpc => exact put_moves (State.kept_stock _ _ _) nofun rfl (by rw [hpc]; rfl)
  | stocked _ hpc =>
    apply put_moves (State.kept_stock _ _ _) nofun rfl
    rw [hpc]
    exact Multiset.pair_comm _ _
  | overflowed hpc | submitted _ hpc =>
    exact put_moves (State.kept_push _ _) nofun rfl (by rw [hpc]; rfl)
  | restocked hpc =>
    apply put_moves (State.kept_push _ _) nofun rfl
    rw [hpc]
    exact Multiset.pair_comm _ _
  | @popInbox _ w h p q _ hpc hpop =>
    obtain ⟨rest, hq, rfl⟩ := ReadyQueues.pop_some hpop
    refine hand_moves ?_ (State.kept_inboxAt s w p rest) nofun ?_ rfl rfl
    · simp [State.kept, hq]
    · show (s.pc _).holds = 0
      rw [hpc]
      rfl
  | aged _ hpc _ hpop =>
    obtain ⟨rest, hx, hkept⟩ := State.kept_pop hpop
    refine hand_moves hx hkept nofun ?_ rfl rfl
    show (s.pc _).holds = 0
    rw [hpc]
    rfl
  | @popTook _ w p rest d h hpc hd =>
    refine hand_moves ?_ (State.kept_dequeAt s (w, p) d) nofun ?_ rfl rfl
    · show (((s.deques (w, p)).map (·, p) : List Entry) : Multiset Entry) = _
      rw [hd]
      exact coe_append d (h, p)
    · show (s.pc _).holds = 0
      rw [hpc]
      rfl
  | drain _ hpc hpop =>
    obtain ⟨rest, hx, hkept⟩ := State.kept_pop hpop
    exact take_moves hx hkept nofun rfl (by rw [hpc]; rfl)
  | pull hpc _ hpop =>
    obtain ⟨rest, hx, hkept⟩ := State.kept_pop hpop
    apply take_moves hx hkept nofun rfl
    rw [hpc]
    exact Multiset.pair_comm _ _
  | @drained _ w first hpc =>
    have hfirst : s.kept (.thread (.inl w)) = first ::ₘ 0 := by
      show (s.pc _).holds = _
      rw [hpc]
      rfl
    refine .of_update rfl (State.kept_hand s w first) nofun ?_
    show _ = _ + s.handed
    rw [hfirst]
    simp
  | @stole _ w x rest h d hpc hd =>
    refine hand_moves ?_ (State.kept_dequeAt s x d) nofun ?_ rfl rfl
    · simp [State.kept, hd]
    · show (s.pc _).holds = 0
      rw [hpc]
      rfl

/-! ### Whole runs -/

/-- Inside `drain_global`, with a task in hand. -/
def Pc.InDrain : Pc n → Prop
  | batching _ _ | stocking _ _ _ | restocking _ _ | drained _ => True
  | _ => False

/-- Inside `enqueue_ready`, before the task is in a container. -/
def Pc.InEnqueue : Pc n → Prop
  | enqueueing _ | assigned _ _ | overflowing _ => True
  | _ => False

theorem Pc.inside_of_holds {p : Pc n} {x : Entry} (h : x ∈ p.holds) : p.InEnqueue ∨ p.InDrain := by
  cases p <;> simp [holds, InEnqueue, InDrain] at h ⊢

/-- What dispatch promises of a state. -/
structure Conserved [Fintype External] (s : State n External) : Prop where
  /-- Nothing is lost, nothing is duplicated. -/
  total : s.enqueued = ∑ x, s.kept x
  /-- A handle enqueued once is at one place, once, in the class it was enqueued with. -/
  place : ∀ h p, (h, p) ∈ s.enqueued → times h s.enqueued = 1 →
    ∃ x, (h, p) ∈ s.kept x ∧ (∀ c ∈ x.priority, c = p) ∧
      ∀ y, times h (s.kept y) = if y = x then 1 else 0
  /-- A thread has it in hand inside `enqueue_ready`, and otherwise a worker inside
  `drain_global`. -/
  hands : ∀ t x, x ∈ s.kept (.thread t) →
    (s.pc t).InEnqueue ∨ (s.pc t).InDrain ∧ ∃ w, t = .inl w
  /-- It is returned no more often than it was enqueued. -/
  once : ∀ h, times h s.handed ≤ times h s.enqueued

omit [DecidableEq External] in
theorem times_sum [Fintype External] (h : TaskHandle) (f : Place n External → Multiset Entry) :
    times h (∑ x, f x) = ∑ x, times h (f x) :=
  map_sum ((Multiset.countAddMonoidHom h).comp (Multiset.mapAddMonoidHom Prod.fst)) f _

theorem times_pos {h : TaskHandle} {p : TaskPriority} {m : Multiset Entry} (hm : (h, p) ∈ m) :
    0 < times h m :=
  Multiset.count_pos.mpr (Multiset.mem_map_of_mem Prod.fst hm)

theorem total [Fintype External] (h : Reachable (system mode n External) s) :
    s.enqueued = ∑ x, s.kept x := by
  refine h.invariant (P := fun s => s.enqueued = ∑ x, s.kept x) ?_ ?_
  · intro _ hi
    obtain rfl := hi
    symm
    apply Finset.sum_eq_zero
    rintro x -
    cases x <;> rfl
  · intro a s s' _ htotal hstep
    cases step_moves hstep with
    | enters x t henq hkept =>
      rw [henq, hkept, sum_update_add, ← htotal]
      rfl
    | moves henq hkept => rw [henq, hkept.sum_eq, htotal]

/-- Only workers drain. -/
theorem external_holds (h : Reachable (system mode n External) s) (e : External) :
    ¬(s.pc (.inr e)).InDrain := by
  refine h.invariant (P := fun s => ¬(s.pc (.inr e)).InDrain) ?_ ?_
  · rintro _ rfl hin
    exact hin
  · intro a s s' _ hout hstep
    have hother : ∀ (t : Fin n ⊕ External) (u : State n External) (p : Pc n), u.pc = s.pc →
        (t = .inr e → ¬p.InDrain) → ¬((u.pcAt t p).pc (.inr e)).InDrain := by
      intro t u p hu hp
      show ¬(Function.update u.pc t p (.inr e)).InDrain
      by_cases ht : t = .inr e
      · subst ht
        rw [Function.update_self]
        exact hp rfl
      · rw [Function.update_of_ne (Ne.symm ht), hu]
        exact hout
    cases hstep with
    | enqueue | assign | deliver | submitted => exact hother _ _ _ rfl fun _ hin => hin
    | _ => exact hother (.inl _) _ _ rfl nofun

theorem conserved [Fintype External] (h : Reachable (system mode n External) s) : Conserved s where
  total := total h
  place g p hmem hone := by
    rw [total h] at hmem
    obtain ⟨x, _, hx⟩ := Multiset.mem_sum.mp hmem
    refine ⟨x, hx, ?_, fun y => ?_⟩
    · intro c hc
      cases x <;> simp only [Place.priority, Option.mem_def, Option.some.injEq, reduceCtorEq] at hc <;>
        simp_all [State.kept]
    · have hsum : ∑ z, times g (s.kept z) = 1 := by
        rw [← times_sum, ← total h, hone]
      exact eq_of_sum_one hsum (times_pos hx) y
  hands t x hx := by
    obtain hin | hin := Pc.inside_of_holds hx
    · exact .inl hin
    · cases t with
      | inl w => exact .inr ⟨hin, w, rfl⟩
      | inr e => exact absurd hin (external_holds h e)
  once g := by
    rw [total h, times_sum]
    exact Finset.single_le_sum (f := fun z => times g (s.kept z)) (fun _ _ => Nat.zero_le _)
      (Finset.mem_univ .returned)

/-! ### An acquisition nobody disturbs -/

/-- Nothing is left to take. -/
def State.Empty (s : State n External) : Prop :=
  (∀ p, s.global p = []) ∧ ∀ x, s.deques x = []

/-- What worker `w` has found empty, if nobody else has acted since it began. -/
def Seen (s : State n External) (w : Fin n) : Pc n → Prop
  | .scanning rest => ∀ p, p ∉ rest → s.deques (w, p) = []
  | .popping p rest => ∀ q, q ≠ p → q ∉ rest → s.deques (w, q) = []
  | .stealing rest => (∀ p, s.global p = []) ∧ ∀ x, x ∉ rest → s.deques x = []
  | .returned none => s.Empty
  | _ => True

theorem mem_victims (w start : Fin n) (x : DequeId n) : x ∈ victims w start ↔ x.1 ≠ w := by
  obtain ⟨v, p⟩ := x
  have hstart : ∃ k, start + k = v := by
    cases n with
    | zero => exact start.elim0
    | succ m => exact ⟨v - start, add_sub_cancel start v⟩
  simp [victims, List.product, mem_scan, hstart]

/-- Steps of one worker, and of nobody else. -/
def Alone (mode : Mode) (w : Fin n) : State n External → State n External → Prop :=
  Relation.ReflTransGen (Step mode (.thread (.inl w)))

theorem seen_step {cfg : RuntimeConfig} (hmode : mode = .stealing cfg)
    (h : Step mode (.thread (.inl w)) s s') (hseen : Seen s w (s.pc (.inl w))) :
    Seen s' w (s'.pc (.inl w)) := by
  have hpc : ∀ (u : State n External) (c : Pc n), (u.pcAt (.inl w) c).pc (.inl w) = c :=
    fun u c => Function.update_self ..
  cases h with
  | enqueue | assign | deliver | queued | full | overflowed | acquire | drain | pull | pullMiss
  | batched | stocked | stockFull | restocked | drained | popTook | aged | stole | popInbox | resume =>
    simp only [State.hand, hpc, Seen]
  | inboxEmpty hstatic => rw [hmode] at hstatic; cases hstatic
  | strict | ageMiss =>
    rw [hpc]
    exact fun p hp => absurd (mem_scan _ p) hp
  | @skip _ _ _ p _ _ hat _ hempty =>
    rw [hat] at hseen
    rw [hpc]
    intro q hq
    by_cases hqp : q = p
    · exact hqp ▸ hempty
    · exact hseen q fun hmem => (List.mem_cons.mp hmem).elim hqp hq
  | probed _ hat =>
    rw [hat] at hseen
    rw [hpc]
    exact fun q hqp hq => hseen q fun hmem => (List.mem_cons.mp hmem).elim hqp hq
  | @popMiss _ _ p _ hat hempty =>
    rw [hat] at hseen
    rw [hpc]
    intro q hq
    by_cases hqp : q = p
    · exact hqp ▸ hempty
    · exact hseen q hqp hq
  | drainMiss start _ hat hpop =>
    rw [hat] at hseen
    rw [hpc]
    refine ⟨ReadyQueues.pop_none.mp hpop, fun x hx => ?_⟩
    rw [mem_victims, not_not] at hx
    exact hx ▸ hseen x.2 (List.not_mem_nil)
  | @stealMiss _ _ x _ hat hempty =>
    rw [hat] at hseen
    rw [hpc]
    refine ⟨hseen.1, fun y hy => ?_⟩
    by_cases hyx : y = x
    · exact hyx ▸ hempty
    · exact hseen.2 y fun hmem => (List.mem_cons.mp hmem).elim hyx hy
  | missed hat =>
    rw [hat] at hseen
    rw [hpc]
    exact ⟨hseen.1, fun x => hseen.2 x List.not_mem_nil⟩

/-- A worker that was alone and comes back empty-handed has seen everything empty. -/
theorem alone_missed {cfg : RuntimeConfig} (hmode : mode = .stealing cfg)
    (hstart : s.pc (.inl w) = .acquiring) (hrun : Alone mode w s s')
    (hmiss : s'.pc (.inl w) = .returned none) : s'.Empty := by
  have hseen : Seen s' w (s'.pc (.inl w)) := by
    clear hmiss
    induction hrun with
    | refl =>
      rw [hstart]
      trivial
    | tail _ hstep ih => exact seen_step hmode hstep ih
  rw [hmiss] at hseen
  exact hseen

/-- **Dispatch conserves tasks**: in every scheduler mode, with any workers, deque
capacity and submitters, each task enqueued is at one place at a time, in the class it
was enqueued with, and is returned once at most; and in the stealing modes an
`acquire_next` during which no other thread acts returns nothing only if there is
nothing in the global queue and in all the deques. -/
theorem dispatch_conserves [Fintype External] (h : Reachable (system mode n External) s) :
    Conserved s ∧ ∀ (cfg : RuntimeConfig) w s', mode = .stealing cfg →
      s.pc (.inl w) = .acquiring → Alone mode w s s' → s'.pc (.inl w) = .returned none →
      s'.Empty :=
  ⟨conserved h, fun _ _ _ hmode hstart hrun hmiss => alone_missed hmode hstart hrun hmiss⟩

theorem dispatch_conserves_drained : ∃ s s' : State 1 Unit,
    Reachable (system (.stealing ⟨.WorkStealing, true, 10⟩) 1 Unit) s ∧ s.enqueued = {(⟨0, 1⟩, .High)} ∧ Conserved s ∧
      s'.pc (.inl 0) = .returned none ∧ s'.Empty := by
  let cfg : RuntimeConfig := ⟨.WorkStealing, true, 10⟩
  have h := Reachable.initial (S := system (.stealing cfg) 1 Unit) rfl
  have h := h.step (.enqueue (t := .inr ()) ⟨0, 1⟩ .High (by rfl) (by rfl))
  have h := h.step (.submitted (e := ()) rfl (by rfl))
  have h := h.step (.acquire (w := 0) (by rfl))
  have h := h.step (.strict (w := 0) rfl (by rfl) (by rfl))
  have h := h.step (.skip (w := 0) rfl (by rfl) rfl (by rfl))
  have h := h.step (.skip (w := 0) rfl (by rfl) rfl (by rfl))
  have h := h.step (.skip (w := 0) rfl (by rfl) rfl (by rfl))
  have h := h.step (.skip (w := 0) rfl (by rfl) rfl (by rfl))
  have h := h.step (.skip (w := 0) rfl (by rfl) rfl (by rfl))
  have h := h.step (.drain (w := 0) rfl (by rfl) (by rfl))
  have h := h.step (.pullMiss (w := 0) (by rfl) (by decide) (by rfl))
  have h := h.step (.drained (w := 0) (by rfl))
  have h := h.step (.resume (w := 0) (by rfl))
  have h := h.step (.acquire (w := 0) (by rfl))
  obtain ⟨hconserved, hsolo⟩ := dispatch_conserves h
  refine ⟨_, _, h, rfl, hconserved, ?_, hsolo cfg 0 _ rfl (by rfl)
    (.head (.strict rfl (by rfl) (by rfl)) <|
      .head (.skip rfl (by rfl) rfl (by rfl)) <| .head (.skip rfl (by rfl) rfl (by rfl)) <|
      .head (.skip rfl (by rfl) rfl (by rfl)) <| .head (.skip rfl (by rfl) rfl (by rfl)) <|
      .head (.skip rfl (by rfl) rfl (by rfl)) <|
      .head (.drainMiss 0 rfl (by rfl) (by rfl)) <| .head (.missed (by rfl)) .refl) (by rfl)⟩
  rfl

/-! ### What a worker alone computes -/

/-- What the function `acquire_next` sees of the state. -/
def State.view (s : State n External) (w : Fin n) : Acquire.State where
  global := s.global
  queues p := s.deques (w, p)
  pop_index := s.pop_index w

/-- `pop_local`, with these priorities left to look at, and then `drain_global`. -/
def scanFrom (cfg : RuntimeConfig) (rest : List TaskPriority) (v : Acquire.State) :
    Option (Entry × Acquire.State) :=
  (rest.findSome? fun p =>
    if cfg.skipEmptyDeques && (v.queues p).isEmpty then none
    else (popBack v.queues p).map fun (x, queues) =>
      (x, {v with queues, pop_index := v.pop_index + 1})) <|> v.drain_global cfg

/-- From this counter and these queues on, the worker returns `x` and leaves `v'`. -/
def Returns (cfg : RuntimeConfig) (x : Entry) (v' : Acquire.State) :
    Pc n → Acquire.State → Prop
  | .acquiring, v => v.acquire_next cfg = some (x, v')
  | .scanning rest, v => scanFrom cfg rest v = some (x, v')
  | .popping p rest, v => (((popBack v.queues p).map fun (y, queues) =>
      (y, {v with queues, pop_index := v.pop_index + 1})) <|> scanFrom cfg rest v) = some (x, v')
  | .batching i first, v => first = x ∧ v.stock cfg (kGlobalDrainBatch - i) = v'
  | .stocking i first y, v => first = x ∧ i < kGlobalDrainBatch ∧
      (match pushLocal cfg v.queues y with
        | some queues => {v with queues}.stock cfg (kGlobalDrainBatch - (i + 1))
        | none => {v with global := v.global.push y.1 y.2}) = v'
  | .restocking first y, v => first = x ∧ {v with global := v.global.push y.1 y.2} = v'
  | .drained first, v => first = x ∧ v = v'
  | .returned r, v => r = some x.1 ∧ v = v'
  | _, _ => False

/-- A step of the worker inside one `acquire_next`. -/
def Within (mode : Mode) (w : Fin n) (s s' : State n External) : Prop :=
  Step mode (.thread (.inl w)) s s' ∧ ∀ r, s.pc (.inl w) ≠ .returned r

omit [DecidableEq External] in
theorem view_dequeAt (s : State n External) (w : Fin n) (p : TaskPriority) (d : List TaskHandle) :
    (s.dequeAt (w, p) d).view w = {s.view w with queues := Function.update (s.view w).queues p d} := by
  have : ∀ q, Function.update s.deques (w, p) d (w, q) =
      Function.update (fun r => s.deques (w, r)) p d q := by
    intro q
    by_cases hq : q = p <;> simp [hq]
  simp [State.view, State.dequeAt, this]

omit [DecidableEq External] in
theorem view_popped (s : State n External) (w : Fin n) :
    (s.popped w).view w = {s.view w with pop_index := (s.view w).pop_index + 1} := by
  simp [State.view, State.popped]

/-- The scan of `acquire_next` when the aging turn, if it is one, found nothing. -/
theorem scanFrom_of_acquire {cfg : RuntimeConfig} {v : Acquire.State} {lowestFirst : Bool}
    (hturn : v.lowestFirst cfg = lowestFirst) (haged : v.popAged cfg = none) :
    scanFrom cfg (scan lowestFirst) v = v.acquire_next cfg := by
  simp [scanFrom, State.acquire_next, haged, State.pop_local, hturn]

theorem scanFrom_cons {cfg : RuntimeConfig} {p : TaskPriority} {rest : List TaskPriority}
    {v : Acquire.State} (hprobe : cfg.skipEmptyDeques = true → v.queues p ≠ []) :
    scanFrom cfg (p :: rest) v = (((popBack v.queues p).map fun (y, queues) =>
      (y, {v with queues, pop_index := v.pop_index + 1})) <|> scanFrom cfg rest v) := by
  have hlook : (cfg.skipEmptyDeques && (v.queues p).isEmpty) = false := by
    cases hskip : cfg.skipEmptyDeques with
    | false => rfl
    | true => simpa using hprobe hskip
  unfold scanFrom
  rw [List.findSome?_cons, if_neg (by simp [hlook])]
  cases popBack v.queues p <;> rfl

theorem returns_step {cfg : RuntimeConfig} {x : Entry} {v' : Acquire.State}
    (h : Within (.stealing cfg) w s s') (hret : Returns cfg x v' (s.pc (.inl w)) (s.view w)) :
    Returns cfg x v' (s'.pc (.inl w)) (s'.view w) := by
  have hpc : ∀ (u : State n External) (c : Pc n), (u.pcAt (.inl w) c).pc (.inl w) = c :=
    fun u c => Function.update_self ..
  obtain ⟨h, hinside⟩ := h
  cases h with
  | enqueue _ _ hat | full _ hat | queued _ hat | overflowed hat | acquire hat | deliver hat
  | missed hat | stealMiss hat | stole hat => rw [hat] at hret; exact hret.elim
  | assign _ hstatic | popInbox hstatic | inboxEmpty hstatic => cases hstatic
  | resume hat => exact absurd hat (hinside _)
  | strict hcfg hat hturn =>
    cases hcfg
    rw [hat] at hret
    rw [hpc]
    have hturn : (s.view w).lowestFirst cfg = false := hturn
    exact (scanFrom_of_acquire hturn (popAged_none.mpr (.inl hturn))).trans hret
  | ageMiss hcfg hat hturn hpop =>
    cases hcfg
    rw [hat] at hret
    rw [hpc]
    have hturn : (s.view w).lowestFirst cfg = true := hturn
    exact (scanFrom_of_acquire hturn
      (popAged_none.mpr (.inr (ReadyQueues.pop_none.mp hpop)))).trans hret
  | @aged _ _ _ h p g hcfg hat hturn hpop =>
    cases hcfg
    rw [hat] at hret
    have haged : (s.view w).popAged cfg =
        some ((h, p), {s.view w with global := g, pop_index := s.pop_index w + 1}) := by
      have hturn : (s.view w).lowestFirst cfg = true := hturn
      have hpop : (s.view w).global.pop true = some (h, p, g) := hpop
      rw [State.popAged, if_pos hturn, hpop]
      rfl
    simp only [Returns, State.acquire_next, haged, Option.orElse_eq_orElse, Option.orElse_some,
      Option.some.injEq, Prod.mk.injEq] at hret
    obtain ⟨rfl, rfl⟩ := hret
    rw [State.hand, hpc]
    exact ⟨rfl, view_popped (s.globalAt g) w⟩
  | @skip _ _ _ p rest hcfg hat hskip hempty =>
    cases hcfg
    rw [hat] at hret
    rw [hpc]
    have : scanFrom cfg (p :: rest) (s.view w) = scanFrom cfg rest (s.view w) := by
      simp [scanFrom, State.view, hskip, hempty]
    exact this.symm.trans hret
  | probed hcfg hat hprobe =>
    cases hcfg
    rw [hat] at hret
    rw [hpc]
    exact (scanFrom_cons hprobe).symm.trans hret
  | @popTook _ _ p rest d h hat hd =>
    rw [hat] at hret
    have hpop : popBack (s.view w).queues p =
        some ((h, p), Function.update (s.view w).queues p d) := by
      have : (s.view w).queues p = d ++ [h] := hd
      simp [popBack, this]
    simp only [Returns, hpop, Option.map_some, Option.orElse_eq_orElse, Option.orElse_some,
      Option.some.injEq, Prod.mk.injEq] at hret
    obtain ⟨rfl, rfl⟩ := hret
    rw [State.hand, hpc]
    refine ⟨rfl, (view_popped (s.dequeAt (w, p) d) w).trans ?_⟩
    rw [view_dequeAt]
  | @popMiss _ _ p rest hat hempty =>
    rw [hat] at hret
    rw [hpc]
    have hpop : popBack (s.view w).queues p = none := popBack_none.mpr hempty
    rw [Returns, hpop] at hret
    exact hret
  | @drain _ _ _ h p g hcfg hat hpop =>
    cases hcfg
    rw [hat] at hret
    rw [hpc]
    have hpop : (s.view w).global.pop ((s.view w).lowestFirst cfg) = some (h, p, g) := hpop
    simp only [Returns, scanFrom, List.findSome?_nil, Option.orElse_eq_orElse, Option.orElse_none,
      State.drain_global, hpop, Option.some.injEq, Prod.mk.injEq] at hret
    obtain ⟨rfl, rfl⟩ := hret
    exact ⟨rfl, congrArg _ (view_popped (s.globalAt g) w)⟩
  | drainMiss start hcfg hat hpop =>
    cases hcfg
    rw [hat] at hret
    have hpop : (s.view w).global.pop ((s.view w).lowestFirst cfg) = none := hpop
    simp [Returns, scanFrom, State.drain_global, hpop] at hret
  | @pull _ _ i first h p g hat hi hpop =>
    rw [hat] at hret
    rw [hpc]
    obtain ⟨hfirst, hstock⟩ := hret
    have hround : kGlobalDrainBatch - i = kGlobalDrainBatch - (i + 1) + 1 := by omega
    have hpop : (s.view w).global.pop false = some (h, p, g) := hpop
    rw [hround, State.stock, hpop] at hstock
    exact ⟨hfirst, hi, hstock⟩
  | @pullMiss _ _ i first hat hi hpop =>
    rw [hat] at hret
    rw [hpc]
    obtain ⟨hfirst, hstock⟩ := hret
    have hround : kGlobalDrainBatch - i = kGlobalDrainBatch - (i + 1) + 1 := by omega
    have hpop : (s.view w).global.pop false = none := hpop
    rw [hround, State.stock, hpop] at hstock
    exact ⟨hfirst, hstock⟩
  | @batched _ _ i first hat hi =>
    rw [hat] at hret
    rw [hpc]
    obtain ⟨hfirst, hstock⟩ := hret
    rw [Nat.sub_eq_zero_of_le (Nat.le_of_not_lt hi)] at hstock
    exact ⟨hfirst, hstock⟩
  | @stocked _ _ _ i first y hcfg hat hroom =>
    cases hcfg
    rw [hat] at hret
    rw [hpc]
    obtain ⟨hfirst, _, hstock⟩ := hret
    have hpush : pushLocal cfg (s.view w).queues y = some ((s.view w).queues.push y.1 y.2) :=
      if_pos hroom
    rw [hpush] at hstock
    refine ⟨hfirst, ?_⟩
    rw [← hstock]
    exact congrArg _ (view_dequeAt s w y.2 _)
  | @stockFull _ _ _ i first y hcfg hat hfull =>
    cases hcfg
    rw [hat] at hret
    rw [hpc]
    obtain ⟨hfirst, _, hstock⟩ := hret
    have hpush : pushLocal cfg (s.view w).queues y = none := if_neg hfull
    rw [hpush] at hstock
    exact ⟨hfirst, hstock⟩
  | restocked hat =>
    rw [hat] at hret
    rw [hpc]
    exact hret
  | drained hat =>
    rw [hat] at hret
    rw [State.hand, hpc]
    exact ⟨hret.1 ▸ rfl, hret.2⟩

/-- **The function is what the steps compute**: an `acquire_next` during which no other
thread acts returns what the function `acquire_next` returns, and leaves the global
queue and the worker's deques as it does. -/
theorem alone_acquire {cfg : RuntimeConfig} {x : Entry} {v' : Acquire.State} {r : Option TaskHandle}
    (hstart : s.pc (.inl w) = .acquiring) (hacq : (s.view w).acquire_next cfg = some (x, v'))
    (hrun : Relation.ReflTransGen (Within (.stealing cfg) w) s s')
    (hend : s'.pc (.inl w) = .returned r) : r = some x.1 ∧ s'.view w = v' := by
  have hret : Returns cfg x v' (s'.pc (.inl w)) (s'.view w) := by
    clear hend
    induction hrun with
    | refl =>
      rw [hstart]
      exact hacq
    | tail _ hstep ih => exact returns_step hstep ih
  rw [hend] at hret
  exact hret

end Thunderbolt.Scheduler.Dispatch
