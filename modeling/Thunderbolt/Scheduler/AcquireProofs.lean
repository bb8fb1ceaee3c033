import Thunderbolt.Scheduler.Acquire

/-! Which priority an acquisition takes.

Every successful acquisition takes one task, of a priority that was queued, and
counts once (`acquire_took`); the deques and the global queue are each scanned in
order, but one after the other. So an acquisition takes the most urgent task
there is only when its own deques have one (`strict_priority`), and an aging turn
the least urgent only when the global queue has one (`aging_bound`). -/
namespace Thunderbolt.Scheduler.Acquire
open Executor Stealing

variable {cfg : RuntimeConfig} {s s' : State} {x : Entry}

namespace State

/-- How many tasks of this priority are queued. -/
def count (s : State) (p : TaskPriority) : ℕ := (s.global p).length + (s.queues p).length

theorem queued_iff {p : TaskPriority} : s.Queued p ↔ 0 < s.count p := by
  simp only [Queued, count, ← List.length_pos_iff]
  omega

end State

/-- One task has been taken, and counted. -/
structure Took (s s' : State) (x : Entry) : Prop where
  count : ∀ p, s.count p = s'.count p + if p = x.2 then 1 else 0
  pop_index : s'.pop_index = s.pop_index + 1

theorem Took.queued (h : Took s s' x) : s.Queued x.2 := by
  have := h.count x.2
  rw [if_pos rfl] at this
  exact State.queued_iff.mpr (by omega)

/-! ### One operation -/

theorem length_push (q : ReadyQueues) (h : TaskHandle) (p r : TaskPriority) :
    ((q.push h p) r).length = (q r).length + if r = p then 1 else 0 := by
  unfold ReadyQueues.push
  by_cases hr : r = p
  · subst hr
    simp
  · simp [hr]

theorem length_pop {q q' : ReadyQueues} {lowestFirst : Bool} {h : TaskHandle} {p : TaskPriority}
    (hp : q.pop lowestFirst = some (h, p, q')) (r : TaskPriority) :
    (q r).length = (q' r).length + if r = p then 1 else 0 := by
  obtain ⟨rest, hq, rfl⟩ := ReadyQueues.pop_some hp
  by_cases hr : r = p
  · subst hr
    simp [hq]
  · simp [hr]

theorem pushLocal_some {queues queues' : ReadyQueues} (h : pushLocal cfg queues x = some queues') :
    queues' = queues.push x.1 x.2 := by
  unfold pushLocal at h
  split at h
  · exact (Option.some.inj h).symm
  · cases h

theorem popBack_some {queues queues' : ReadyQueues} {p : TaskPriority}
    (h : popBack queues p = some (x, queues')) :
    x.2 = p ∧ ∀ r, (queues r).length = (queues' r).length + if r = p then 1 else 0 := by
  unfold popBack at h
  cases hlast : (queues p).getLast? with
  | none => simp [hlast] at h
  | some g =>
    simp only [hlast, Option.some.injEq, Prod.mk.injEq] at h
    obtain ⟨rfl, rfl⟩ := h
    refine ⟨rfl, fun r => ?_⟩
    by_cases hr : r = p
    · subst hr
      have : queues r ≠ [] := by
        intro hnil
        simp [hnil] at hlast
      have := List.length_pos_iff.mpr this
      simp
      omega
    · simp [hr]

theorem popBack_none {queues : ReadyQueues} {p : TaskPriority} :
    popBack queues p = none ↔ queues p = [] := by
  unfold popBack
  cases hlast : (queues p).getLast? with
  | none => simpa using hlast
  | some g =>
    simp only [reduceCtorEq, false_iff]
    intro hnil
    simp [hnil] at hlast

theorem enqueue_count (s : State) (onOwnWorker : Bool) (x : Entry) (p : TaskPriority) :
    (s.enqueue_ready cfg onOwnWorker x).count p = s.count p + if p = x.2 then 1 else 0 := by
  unfold State.enqueue_ready
  split
  · rename_i queues hpush
    cases onOwnWorker with
    | false => cases hpush
    | true =>
      simp only [State.count, pushLocal_some hpush, length_push]
      omega
  · simp only [State.count, length_push]
    omega

theorem enqueue_pop_index (s : State) (onOwnWorker : Bool) (x : Entry) :
    (s.enqueue_ready cfg onOwnWorker x).pop_index = s.pop_index := by
  unfold State.enqueue_ready
  split <;> rfl

/-! ### The own deques -/

theorem pop_local_some (h : s.pop_local cfg = some (x, s')) :
    Took s s' x ∧ s.queues x.2 ≠ [] ∧
      ∀ q, s.queues q ≠ [] → Ahead (s.lowestFirst cfg) x.2 q := by
  obtain ⟨p, hp, hfirst⟩ := scan_first h
  split at hp
  · cases hp
  · obtain ⟨⟨y, queues⟩, hpop, hy⟩ := Option.map_eq_some_iff.mp hp
    simp only [Prod.mk.injEq] at hy
    obtain ⟨rfl, rfl⟩ := hy
    obtain ⟨hprio, hlen⟩ := popBack_some hpop
    refine ⟨⟨fun r => ?_, rfl⟩, ?_, fun q hq => ?_⟩
    · simp only [State.count, hlen r, hprio]
      omega
    · intro hnil
      rw [hprio] at hnil
      rw [popBack_none.mpr hnil] at hpop
      cases hpop
    · rw [hprio]
      apply hfirst
      have hsome : popBack s.queues q ≠ none := fun hnone => hq (popBack_none.mp hnone)
      simp [hq, hsome]

theorem pop_local_none : s.pop_local cfg = none ↔ ∀ p, s.queues p = [] := by
  unfold State.pop_local
  rw [scan_none]
  refine forall_congr' fun p => ?_
  rw [← popBack_none]
  split
  · rename_i hempty
    have : s.queues p = [] := by
      rw [Bool.and_eq_true, List.isEmpty_iff] at hempty
      exact hempty.2
    simp [popBack_none, this]
  · simp

/-! ### The global queue -/

theorem popAged_some (h : s.popAged cfg = some (x, s')) :
    Took s s' x ∧ s.lowestFirst cfg = true ∧ s.global x.2 ≠ [] ∧
      ∀ q, s.global q ≠ [] → Ahead true x.2 q := by
  unfold State.popAged at h
  split at h
  · rename_i haging
    obtain ⟨⟨g, p, global⟩, hpop, hx⟩ := Option.map_eq_some_iff.mp h
    simp only [Prod.mk.injEq] at hx
    obtain ⟨rfl, rfl⟩ := hx
    refine ⟨⟨fun r => ?_, rfl⟩, haging, ?_, fun q hq => ReadyQueues.pop_ahead hpop hq⟩
    · simp only [State.count, length_pop hpop r]
      omega
    · obtain ⟨rest, hq, _⟩ := ReadyQueues.pop_some hpop
      simp [hq]
  · cases h

theorem popAged_none :
    s.popAged cfg = none ↔ s.lowestFirst cfg = false ∨ ∀ p, s.global p = [] := by
  unfold State.popAged
  split
  · rename_i haging
    simp [haging, ReadyQueues.pop_none]
  · rename_i haging
    simp [haging]

/-- A batch moves tasks between the queues. -/
theorem stock_frame (cfg : RuntimeConfig) (rounds : ℕ) (s : State) :
    (∀ p, (s.stock cfg rounds).count p = s.count p) ∧
      (s.stock cfg rounds).pop_index = s.pop_index := by
  induction rounds generalizing s with
  | zero => exact ⟨fun _ => rfl, rfl⟩
  | succ rounds ih =>
    unfold State.stock
    split
    · exact ⟨fun _ => rfl, rfl⟩
    · rename_i h p global hpop
      split
      · rename_i queues hpush
        obtain ⟨hcount, hindex⟩ := ih {s with global, queues}
        refine ⟨fun r => ?_, hindex⟩
        rw [hcount r]
        simp only [State.count, pushLocal_some hpush, length_push, length_pop hpop r]
        omega
      · refine ⟨fun r => ?_, rfl⟩
        simp only [State.count, length_push, length_pop hpop r]

theorem drain_global_some (h : s.drain_global cfg = some (x, s')) :
    Took s s' x ∧ s.global x.2 ≠ [] ∧
      ∀ q, s.global q ≠ [] → Ahead (s.lowestFirst cfg) x.2 q := by
  unfold State.drain_global at h
  split at h
  · cases h
  · rename_i g p global hpop
    simp only [Option.some.injEq, Prod.mk.injEq] at h
    obtain ⟨rfl, rfl⟩ := h
    obtain ⟨hcount, hindex⟩ :=
      stock_frame cfg (kGlobalDrainBatch - 1) {s with global, pop_index := s.pop_index + 1}
    refine ⟨⟨fun r => ?_, hindex⟩, ?_, fun q hq => ReadyQueues.pop_ahead hpop hq⟩
    · rw [hcount r]
      simp only [State.count, length_pop hpop r]
      omega
    · obtain ⟨rest, hq, _⟩ := ReadyQueues.pop_some hpop
      simp [hq]

theorem drain_global_none : s.drain_global cfg = none ↔ ∀ p, s.global p = [] := by
  unfold State.drain_global
  rw [← (ReadyQueues.pop_none : s.global.pop (s.lowestFirst cfg) = none ↔ _)]
  split
  · rename_i hpop
    simp [hpop]
  · rename_i hpop
    simp [hpop]

/-! ### One acquisition -/

theorem acquire_cases (h : s.acquire_next cfg = some (x, s')) :
    s.popAged cfg = some (x, s') ∨
      s.popAged cfg = none ∧ s.pop_local cfg = some (x, s') ∨
      s.popAged cfg = none ∧ s.pop_local cfg = none ∧ s.drain_global cfg = some (x, s') := by
  unfold State.acquire_next at h
  cases haged : s.popAged cfg with
  | some y => exact .inl (by simpa [haged] using h)
  | none =>
    cases hlocal : s.pop_local cfg with
    | some y => exact .inr (.inl ⟨rfl, by simpa [haged, hlocal] using h⟩)
    | none => exact .inr (.inr ⟨rfl, rfl, by simpa [haged, hlocal] using h⟩)

theorem acquire_took (h : s.acquire_next cfg = some (x, s')) : Took s s' x := by
  obtain h | ⟨_, h⟩ | ⟨_, _, h⟩ := acquire_cases h
  · exact (popAged_some h).1
  · exact (pop_local_some h).1
  · exact (drain_global_some h).1

/-- It comes back empty-handed only when there is nothing. -/
theorem acquire_none : s.acquire_next cfg = none ↔ ∀ p, ¬s.Queued p := by
  constructor
  · intro h
    have hall : s.popAged cfg = none ∧ s.pop_local cfg = none ∧ s.drain_global cfg = none := by
      unfold State.acquire_next at h
      cases haged : s.popAged cfg <;> cases hlocal : s.pop_local cfg <;> simp_all
    intro p hp
    obtain hp | hp := hp
    · exact hp (drain_global_none.mp hall.2.2 p)
    · exact hp (pop_local_none.mp hall.2.1 p)
  · intro h
    cases hacq : s.acquire_next cfg with
    | none => rfl
    | some y => exact absurd (acquire_took hacq).queued (h y.1.2)

/-- A search of `a`, then of `b`, finds the first of both when `a` precedes `b`. -/
theorem takesFirst_iff {lowestFirst : Bool} {a b : ReadyQueues}
    (hqueued : ∀ p, s.Queued p ↔ a p ≠ [] ∨ b p ≠ [])
    (ha : (∃ p, a p ≠ []) → ∃ x s', s.acquire_next cfg = some (x, s') ∧ a x.2 ≠ [] ∧
      ∀ q, a q ≠ [] → Ahead lowestFirst x.2 q)
    (hb : (∀ p, a p = []) → (∃ p, b p ≠ []) → ∃ x s', s.acquire_next cfg = some (x, s') ∧
      b x.2 ≠ [] ∧ ∀ q, b q ≠ [] → Ahead lowestFirst x.2 q) :
    s.TakesFirst cfg lowestFirst ↔ Precedes lowestFirst a b := by
  constructor
  · intro htakes q hq hsome
    obtain ⟨x, s', hacq, hx, _⟩ := ha hsome
    obtain ⟨y, t, hacq', _, hahead⟩ := htakes q ((hqueued q).mpr (.inr hq))
    obtain rfl : x = y := (Prod.mk.inj (Option.some.inj (hacq.symm.trans hacq'))).1
    exact ⟨x.2, hx, hahead⟩
  · intro hprec q hq
    by_cases hsome : ∃ p, a p ≠ []
    · obtain ⟨x, s', hacq, hx, hfirst⟩ := ha hsome
      refine ⟨x, s', hacq, (hqueued _).mpr (.inl hx), ?_⟩
      obtain hq | hq := (hqueued q).mp hq
      · exact hfirst q hq
      · obtain ⟨p, hp, hpq⟩ := hprec q hq hsome
        exact (hfirst p hp).trans hpq
    · have hempty : ∀ p, a p = [] := by simpa using hsome
      have hq : b q ≠ [] := ((hqueued q).mp hq).resolve_left (not_not_intro (hempty q))
      obtain ⟨x, s', hacq, hx, hfirst⟩ := hb hempty ⟨q, hq⟩
      exact ⟨x, s', hacq, (hqueued _).mpr (.inr hx), hfirst q hq⟩

/-- Not on an aging turn: the own deques, then the global queue. -/
theorem takesFirst_strict (hturn : s.lowestFirst cfg = false) :
    s.TakesFirst cfg false ↔ Precedes false s.queues s.global := by
  have haged : s.popAged cfg = none := popAged_none.mpr (.inl hturn)
  apply takesFirst_iff fun p => or_comm
  · intro hsome
    cases hlocal : s.pop_local cfg with
    | none =>
      obtain ⟨p, hp⟩ := hsome
      exact absurd (pop_local_none.mp hlocal p) hp
    | some y =>
      obtain ⟨_, hy, hfirst⟩ := pop_local_some hlocal
      rw [hturn] at hfirst
      exact ⟨y.1, y.2, by simp [State.acquire_next, haged, hlocal], hy, hfirst⟩
  · intro hempty hsome
    have hlocal : s.pop_local cfg = none := pop_local_none.mpr hempty
    cases hdrain : s.drain_global cfg with
    | none =>
      obtain ⟨p, hp⟩ := hsome
      exact absurd (drain_global_none.mp hdrain p) hp
    | some y =>
      obtain ⟨_, hy, hfirst⟩ := drain_global_some hdrain
      rw [hturn] at hfirst
      exact ⟨y.1, y.2, by simp [State.acquire_next, haged, hlocal, hdrain], hy, hfirst⟩

/-- On an aging turn: the global queue, then the own deques. -/
theorem takesFirst_aging (hturn : s.lowestFirst cfg = true) :
    s.TakesFirst cfg true ↔ Precedes true s.global s.queues := by
  apply takesFirst_iff fun p => Iff.rfl
  · intro hsome
    cases haged : s.popAged cfg with
    | none =>
      obtain ⟨p, hp⟩ := hsome
      obtain hfalse | hempty := popAged_none.mp haged
      · rw [hturn] at hfalse
        cases hfalse
      · exact absurd (hempty p) hp
    | some y =>
      obtain ⟨_, _, hy, hfirst⟩ := popAged_some haged
      exact ⟨y.1, y.2, by simp [State.acquire_next, haged], hy, hfirst⟩
  · intro hempty hsome
    have haged : s.popAged cfg = none := popAged_none.mpr (.inr hempty)
    cases hlocal : s.pop_local cfg with
    | none =>
      obtain ⟨p, hp⟩ := hsome
      exact absurd (pop_local_none.mp hlocal p) hp
    | some y =>
      obtain ⟨_, hy, hfirst⟩ := pop_local_some hlocal
      rw [hturn] at hfirst
      exact ⟨y.1, y.2, by simp [State.acquire_next, haged, hlocal], hy, hfirst⟩

/-! ### Strict priority -/

/-- The deques and the global queue hold together what the ready list holds. -/
def Matches (s : State) (ready : ReadyQueues) : Prop := ∀ p, (ready p).length = s.count p

theorem Matches.queued {ready : ReadyQueues} (h : Matches s ready) {p : TaskPriority} :
    s.Queued p ↔ ready p ≠ [] := by
  rw [State.queued_iff, ← h p, List.length_pos_iff]

theorem lowestFirst_strict (hmode : cfg.scheduler = .WorkStealing) (s : State) :
    s.lowestFirst cfg = false := by
  simp [State.lowestFirst, aging_pop_favours_lowest, hmode]

/-- The two runtimes agree until an acquisition passes over something more urgent. -/
theorem priorities_agree (hmode : cfg.scheduler = .WorkStealing) (es : List Event) {s : State}
    {ready : ReadyQueues} (h : Matches s ready) :
    s.priorities cfg es = standardPriorities ready es ↔
      s.Along cfg (fun e t => e = .acquire → Precedes false t.queues t.global) es := by
  induction es generalizing s ready with
  | nil => exact ⟨fun _ => trivial, fun _ => rfl⟩
  | cons e es ih =>
    cases e with
    | enqueue onOwnWorker x =>
      have hafter : Matches (s.after cfg (.enqueue onOwnWorker x)) (ready.push x.1 x.2) := by
        intro p
        rw [length_push, h p]
        exact (enqueue_count s onOwnWorker x p).symm
      simpa [State.priorities, standardPriorities, State.Along, State.handed] using ih hafter
    | acquire =>
      simp only [State.Along, true_imp_iff]
      cases hpop : ready.pop false with
      | none =>
        have hnone : s.acquire_next cfg = none := by
          apply acquire_none.mpr
          intro p hp
          exact h.queued.mp hp (ReadyQueues.pop_none.mp hpop p)
        have hafter : s.after cfg .acquire = s := by simp [State.after, hnone]
        have hprec : Precedes false s.queues s.global := fun q hq =>
          absurd (.inl hq) (acquire_none.mp hnone q)
        simpa [State.priorities, standardPriorities, State.handed, hnone, hpop, hafter, hprec]
          using ih h
      | some y =>
        obtain ⟨g, p, ready'⟩ := y
        have hp : s.Queued p := by
          obtain ⟨rest, hq, _⟩ := ReadyQueues.pop_some hpop
          exact h.queued.mpr (by simp [hq])
        cases hacq : s.acquire_next cfg with
        | none => exact absurd hp (acquire_none.mp hacq p)
        | some z =>
          obtain ⟨x, s'⟩ := z
          have htook := acquire_took hacq
          -- The task taken is of the standard runtime's priority exactly when it is the
          -- most urgent there is.
          have hfirst : x.2 = p ↔ Precedes false s.queues s.global := by
            rw [← takesFirst_strict (lowestFirst_strict hmode s)]
            constructor
            · intro hx q hq
              refine ⟨x, s', hacq, htook.queued, ?_⟩
              rw [hx]
              exact ReadyQueues.pop_ahead hpop (h.queued.mp hq)
            · intro htakes
              obtain ⟨x', t, hacq', _, hahead⟩ := htakes p hp
              obtain rfl : x = x' := (Prod.mk.inj (Option.some.inj (hacq.symm.trans hacq'))).1
              exact hahead.antisymm (ReadyQueues.pop_ahead hpop (h.queued.mp htook.queued))
          have hafter : s.after cfg .acquire = s' := by simp [State.after, hacq]
          have hsplit : s.priorities cfg (.acquire :: es) = standardPriorities ready (.acquire :: es) ↔
              x.2 = p ∧ s'.priorities cfg es = standardPriorities ready' es := by
            simp [State.priorities, standardPriorities, State.handed, hacq, hpop, hafter]
          rw [hsplit, hafter, ← hfirst]
          refine and_congr_right fun hx => ih fun r => ?_
          have hcount := htook.count r
          have hlen := length_pop hpop r
          rw [h r, hcount, hx] at hlen
          omega

/-- **Strict priority holds exactly where the worker's deques are looked at in time**:
in `WorkStealing` an acquisition takes the most urgent task there is if and only if
its own deques are empty or hold one as urgent as any in the global queue; and over a
run both runtimes hand out the same priorities if and only if every acquisition of
it happens so. -/
theorem strict_priority (hmode : cfg.scheduler = .WorkStealing) :
    (∀ s : State, s.TakesFirst cfg false ↔ Precedes false s.queues s.global) ∧
      ∀ es, State.initial.priorities cfg es = standardPriorities .empty es ↔
        State.initial.Along cfg (fun e s => e = .acquire → Precedes false s.queues s.global) es :=
  ⟨fun s => takesFirst_strict (lowestFirst_strict hmode s),
    fun es => priorities_agree hmode es fun p => by
      cases p <;> rfl⟩

theorem strict_priority_default : State.initial.priorities ⟨.WorkStealing, true, 10⟩
      [.enqueue false (⟨0, 1⟩, .Low), .enqueue false (⟨1, 1⟩, .High), .acquire, .acquire] =
    [.High, .Low] :=
  ((strict_priority (show (⟨.WorkStealing, true, 10⟩ : RuntimeConfig).scheduler = .WorkStealing from rfl)).2 _).mpr (by decide)

/-- A task from outside runs, and submits a low-priority task, on its worker's deque; then somebody
outside submits a critical one: the next acquisition takes the low one. -/
theorem strict_priority_local_first :
    let cfg : RuntimeConfig := ⟨.WorkStealing, true, 10⟩
    let es : List Event := [.enqueue false (⟨2, 1⟩, .Normal), .acquire, .enqueue true (⟨0, 1⟩, .Low),
      .enqueue false (⟨1, 1⟩, .Critical)]
    ¬(State.initial.run cfg es).TakesFirst cfg false ∧
      State.initial.priorities cfg (es ++ [.acquire]) ≠
        standardPriorities .empty (es ++ [.acquire]) := by
  refine ⟨fun htakes => ?_, by decide⟩
  exact absurd ((takesFirst_strict (by rfl)).mp htakes) (by decide)

/-! ### Aging -/

/-- Between two aging turns there are `kAgingInterval - 1` acquisitions. -/
theorem background_within (hmode : cfg.scheduler = .PriorityAging) (es : List Event) {s : State}
    (hqueued : s.Along cfg (fun _ t => t.Queued .Background) es)
    (hturns : s.Along cfg (fun e t => e = .acquire → t.lowestFirst cfg = true →
      Precedes true t.global t.queues) es)
    (hlen : kAgingInterval - s.pop_index % kAgingInterval ≤ (s.priorities cfg es).length) :
    .Background ∈ s.priorities cfg es := by
  induction es generalizing s with
  | nil =>
    simp only [State.priorities, List.length_nil, kAgingInterval] at hlen
    omega
  | cons e es ih =>
    obtain ⟨hqueued, hqueued'⟩ := hqueued
    obtain ⟨hturn, hturns'⟩ := hturns
    cases e with
    | enqueue onOwnWorker x =>
      have hsame : s.priorities cfg (.enqueue onOwnWorker x :: es) =
          (s.after cfg (.enqueue onOwnWorker x)).priorities cfg es := rfl
      have hindex : (s.after cfg (.enqueue onOwnWorker x)).pop_index = s.pop_index :=
        enqueue_pop_index s onOwnWorker x
      rw [hsame] at hlen ⊢
      exact ih hqueued' hturns' (hindex ▸ hlen)
    | acquire =>
      cases hacq : s.acquire_next cfg with
      | none => exact absurd hqueued (acquire_none.mp hacq _)
      | some z =>
        obtain ⟨x, s'⟩ := z
        have hafter : s.after cfg .acquire = s' := by simp [State.after, hacq]
        have hcons : s.priorities cfg (.acquire :: es) = x.2 :: s'.priorities cfg es := by
          simp [State.priorities, State.handed, hacq, hafter]
        rw [hcons] at hlen ⊢
        by_cases haging : s.lowestFirst cfg = true
        · -- The turn takes the least urgent, and there is a background task.
          obtain ⟨y, t, hacq', _, hahead⟩ :=
            (takesFirst_aging haging).mpr (hturn rfl haging) _ hqueued
          obtain rfl : x = y := (Prod.mk.inj (Option.some.inj (hacq.symm.trans hacq'))).1
          have : x.2 = .Background := by
            cases hx : x.2 <;> first | rfl | (rw [hx] at hahead; exact absurd hahead (by decide))
          exact this ▸ List.mem_cons_self
        · apply List.mem_cons_of_mem
          rw [hafter] at hqueued' hturns'
          apply ih hqueued' hturns'
          have hindex := (acquire_took hacq).pop_index
          simp only [State.lowestFirst, aging_pop_favours_lowest, hmode, beq_self_eq_true,
            Bool.true_and, beq_iff_eq, kAgingInterval] at haging
          simp only [List.length_cons, kAgingInterval] at hlen ⊢
          omega

/-- **The aging bound holds exactly where the global queue is the place to look**: on an
aging turn an acquisition takes the least urgent task there is if and only if the
global queue is empty or holds one as little urgent as any in the worker's deques;
and when every aging turn of a run happens so, `kAgingInterval` acquisitions
throughout which a background task is queued include one of a background task. -/
theorem aging_bound (hmode : cfg.scheduler = .PriorityAging) :
    (∀ s : State, s.lowestFirst cfg = true →
        (s.TakesFirst cfg true ↔ Precedes true s.global s.queues)) ∧
      ∀ (s : State) es, s.Along cfg (fun _ t => t.Queued .Background) es →
        s.Along cfg (fun e t => e = .acquire → t.lowestFirst cfg = true →
          Precedes true t.global t.queues) es →
        kAgingInterval ≤ (s.priorities cfg es).length → .Background ∈ s.priorities cfg es := by
  refine ⟨fun s => takesFirst_aging, fun s es hqueued hturns hlen => ?_⟩
  apply background_within hmode es hqueued hturns
  exact (Nat.sub_le _ _).trans hlen

theorem aging_bound_outside :
    let cfg : RuntimeConfig := ⟨.PriorityAging, true, 10⟩
    let es : List Event :=
      List.replicate 8 (.enqueue false (⟨1, 1⟩, .Critical)) ++ List.replicate 8 .acquire
    .Background ∈ (State.initial.run cfg [.enqueue false (⟨0, 1⟩, .Background)]).priorities cfg es :=
  (aging_bound rfl).2 _ _ (by decide) (by decide) (by decide)

/-- Eight tasks from outside, and the eighth is running when the first aging turn is over. -/
def eighthRuns : List Event := (List.replicate 8 [.enqueue false (⟨3, 1⟩, .Normal), .acquire]).flatten

/-- It submits a background task, which waits in the worker's deque. Seven times a critical one is
submitted next to it by the task that runs, and taken; then somebody outside submits a critical one, and on
the aging turn that is taken. -/
theorem aging_bound_local :
    let cfg : RuntimeConfig := ⟨.PriorityAging, true, 10⟩
    let start := (State.initial.run cfg eighthRuns).after cfg (.enqueue true (⟨0, 1⟩, .Background))
    let es : List Event := (List.replicate 7 [.enqueue true (⟨1, 1⟩, .Critical), .acquire]).flatten ++
      [.enqueue false (⟨2, 1⟩, .Critical)]
    (State.initial.run cfg eighthRuns).priorities cfg [.acquire] = [] ∧
      ((start.run cfg es).lowestFirst cfg = true ∧ ¬(start.run cfg es).TakesFirst cfg true) ∧
      start.Along cfg (fun _ t => t.Queued .Background) (es ++ [.acquire]) ∧
      kAgingInterval ≤ (start.priorities cfg (es ++ [.acquire])).length ∧
      .Background ∉ start.priorities cfg (es ++ [.acquire]) := by
  refine ⟨by decide, ⟨by decide, fun htakes => ?_⟩, by decide, by decide, by decide⟩
  exact absurd ((takesFirst_aging (by decide)).mp htakes) (by decide)

end Thunderbolt.Scheduler.Acquire
