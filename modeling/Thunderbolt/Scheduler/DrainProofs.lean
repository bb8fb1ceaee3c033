import Thunderbolt.Scheduler.Drain

/-! The global queue is first in, first out exactly as long as tasks are put back in their turn.

What has left and what is queued make up what was pushed, in order (`Inv.fifo`), and a worker
holds the one task it has taken (`Inv.held`). Each step either takes the front of a queue or
pushes at its back; only putting back is different. -/
namespace Thunderbolt.Scheduler.Drain
open Concurrent Executor Stealing Acquire

variable {Worker : Type} [DecidableEq Worker] {cfg : RuntimeConfig} {s s' : State Worker} {w : Worker}
  {p : TaskPriority} {x : Entry}

/-- The departures that a worker may have to take back. -/
def Pc.held (w : Worker) : Pc → List (Departure Worker)
  | .holding _ x => [⟨x, some w⟩]
  | _ => []

structure Inv (s : State Worker) : Prop where
  fifo : s.Fifo
  held : ∀ w, (s.departed.filter fun d => d.holder = some w) = (s.drain w).held w

/-! ### One step at a time -/

theorem held_drainAt (s : State Worker) (w v : Worker) (pc : Pc) :
    ((s.drainAt w pc).drain v).held v = if v = w then pc.held v else (s.drain v).held v := by
  show (Function.update s.drain w pc v).held v = _
  by_cases hv : v = w
  · subst hv
    rw [Function.update_self, if_pos rfl]
  · rw [Function.update_of_ne hv, if_neg hv]

theorem Inv.drainAt (h : Inv s) {pc : Pc} (hpc : pc.held w = (s.drain w).held w) : Inv (s.drainAt w pc) where
  fifo := h.fifo
  held v := by
    rw [held_drainAt]
    split
    · rename_i hv
      rw [hv, hpc]
      exact h.held w
    · exact h.held v

theorem Inv.queuesAt (h : Inv s) (q : ReadyQueues) : Inv (s.queuesAt w q) := ⟨h.fifo, h.held⟩

theorem Inv.popped (h : Inv s) (w : Worker) : Inv (s.popped w) := ⟨h.fifo, h.held⟩

/-- A push at the back. -/
theorem Inv.enqueue (h : Inv s) (x : Entry) :
    Inv {s with global := s.global.push x.1 x.2, pushed := s.pushed ++ [x]} where
  fifo p := by
    have hp := h.fifo p
    show s.left p ++ Function.update s.global x.2 (s.global x.2 ++ [x.1]) p =
      ((s.pushed ++ [x]).filter fun y => y.2 = p).map Prod.fst
    rw [List.filter_append, List.map_append]
    by_cases hx : x.2 = p
    · subst hx
      rw [Function.update_self, ← List.append_assoc, hp]
      simp [State.pushedAt]
    · rw [Function.update_of_ne (Ne.symm hx), hp]
      simp [State.pushedAt, hx]
  held := h.held

omit [DecidableEq Worker] in
/-- A pop at the front. -/
theorem fifo_depart (h : s.Fifo) {holder : Option Worker} {lowestFirst : Bool} {q : ReadyQueues}
    (hpop : s.global.pop lowestFirst = some (x.1, x.2, q)) : (s.depart x holder q).Fifo := by
  obtain ⟨rest, hfront, rfl⟩ := ReadyQueues.pop_some hpop
  intro p
  have hp := h p
  show ((s.departed ++ [(⟨x, holder⟩ : Departure Worker)]).filter fun d => d.entry.2 = p).map (·.entry.1) ++
    Function.update s.global x.2 rest p = s.pushedAt p
  rw [List.filter_append, List.map_append, ← hp]
  by_cases hx : x.2 = p
  · subst hx
    rw [Function.update_self, hfront]
    simp [State.left, State.departedAt]
  · rw [Function.update_of_ne (Ne.symm hx)]
    simp [State.left, State.departedAt, hx]

theorem Inv.depart (h : Inv s) {lowestFirst : Bool} {q : ReadyQueues}
    (hpop : s.global.pop lowestFirst = some (x.1, x.2, q)) : Inv (s.depart x none q) where
  fifo := fifo_depart h.fifo hpop
  held v := by
    show (s.departed ++ [(⟨x, none⟩ : Departure Worker)]).filter _ = (s.drain v).held v
    rw [List.filter_append, h.held v]
    simp

/-- A worker takes a task that it may have to put back. -/
theorem Inv.pull (h : Inv s) {i j : ℕ} {lowestFirst : Bool} {q : ReadyQueues}
    (hpc : s.drain w = .batching i) (hpop : s.global.pop lowestFirst = some (x.1, x.2, q)) :
    Inv ((s.depart x (some w) q).drainAt w (.holding j x)) where
  fifo := fifo_depart h.fifo hpop
  held v := by
    have hv := h.held v
    rw [held_drainAt]
    show (s.departed ++ [(⟨x, some w⟩ : Departure Worker)]).filter _ = _
    rw [List.filter_append, hv]
    by_cases hvw : v = w
    · subst hvw
      simp [hpc, Pc.held]
    · have hnone : [(⟨x, some w⟩ : Departure Worker)].filter (fun d => d.holder = some v) = [] := by
        simp [Ne.symm hvw]
      rw [hnone, List.append_nil, if_neg hvw]
      rfl

/-- Whom a departure is held by does not matter to what has left. -/
theorem settle_departed (l : List (Departure Worker)) (w v : Worker) :
    ((l.map fun d => if d.holder = some w then {d with holder := none} else d).filter fun d =>
      d.holder = some v) = if v = w then [] else l.filter fun d => d.holder = some v := by
  induction l with
  | nil => simp
  | cons d l ih =>
    rw [List.map_cons, List.filter_cons, ih]
    by_cases hd : d.holder = some w
    · by_cases hv : v = w
      · simp [hd, hv]
      · simp [hd, hv, Ne.symm hv]
    · by_cases hv : v = w
      · subst hv
        simp [hd]
      · simp [hd, hv, List.filter_cons]

theorem Inv.settle (h : Inv s) (w : Worker) (j : ℕ) :
    Inv ((s.settle w).drainAt w (.batching j)) where
  fifo p := by
    have hp := h.fifo p
    have hleft : (s.settle w).left p = s.left p := by
      have hentry : ∀ d : Departure Worker,
          (if d.holder = some w then {d with holder := none} else d).entry = d.entry := by
        intro d
        split <;> rfl
      simp only [State.left, State.departedAt, State.settle, List.filter_map, List.map_map,
        Function.comp_def, hentry]
    exact (congrArg (· ++ s.global p) hleft).trans hp
  held v := by
    have hv := h.held v
    rw [held_drainAt]
    show ((s.departed.map _).filter _) = _
    rw [settle_departed, hv]
    rfl

/-- Of one priority, the worker holds the task it has taken, or none. -/
theorem Inv.held_departedAt (h : Inv s) {i : ℕ} (hpc : s.drain w = .holding i x) (p : TaskPriority) :
    ((s.departedAt p).filter fun d => d.holder = some w) = if x.2 = p then [⟨x, some w⟩] else [] := by
  have hheld := h.held w
  rw [hpc] at hheld
  rw [State.departedAt, List.filter_comm, hheld, Pc.held, List.filter_singleton]
  by_cases hx : x.2 = p <;> simp [hx]

/-- A task put back in its turn is at the front of its queue again. -/
theorem Inv.putBack (h : Inv s) {i : ℕ} (hpc : s.drain w = .holding i x) (hempty : s.global x.2 = [])
    (hlast : (s.departedAt x.2).getLast? = some ⟨x, some w⟩) :
    Inv ((s.putBack w x).drainAt w .idle) where
  fifo p := by
    have hp := h.fifo p
    have hheld := h.held_departedAt hpc p
    have hleft : (s.putBack w x).departedAt p = (s.departedAt p).filter fun d => d.holder ≠ some w :=
      List.filter_comm ..
    show ((s.putBack w x).departedAt p).map (·.entry.1) ++
      Function.update s.global x.2 (s.global x.2 ++ [x.1]) p = s.pushedAt p
    rw [hleft]
    by_cases hx : x.2 = p
    · subst hx
      obtain ⟨before, hbefore⟩ := List.getLast?_eq_some_iff.mp hlast
      rw [State.left, hbefore, hempty] at hp
      rw [hbefore, List.filter_append, if_pos rfl, List.filter_singleton] at hheld
      have hnone : (before.filter fun d => d.holder = some w) = [] := by simpa using hheld
      have hsame : (before.filter fun d => d.holder ≠ some w) = before := by
        rw [List.filter_eq_self]
        intro d hd
        have := List.filter_eq_nil_iff.mp hnone d hd
        simpa using this
      rw [hbefore, List.filter_append, hsame, Function.update_self, hempty, ← hp]
      simp
    · rw [if_neg hx] at hheld
      have hsame : ((s.departedAt p).filter fun d => d.holder ≠ some w) = s.departedAt p := by
        rw [List.filter_eq_self]
        intro d hd
        have := List.filter_eq_nil_iff.mp hheld d hd
        simpa using this
      rw [hsame, Function.update_of_ne (Ne.symm hx)]
      exact hp
  held v := by
    have hv := h.held v
    rw [held_drainAt]
    show ((s.departed.filter _).filter _) = _
    rw [List.filter_filter]
    by_cases hvw : v = w
    · subst hvw
      simp [Pc.held]
    · rw [if_neg hvw]
      refine Eq.trans (List.filter_congr fun d _ => ?_) hv
      by_cases hd : d.holder = some v <;> simp [hd, hvw]

theorem Inv.step {a : Act Worker} (h : Inv s) (hstep : s.next cfg a = some s') (hturn : InTurn cfg a s) :
    Inv s' := by
  cases a with
  | enqueue w x =>
    cases w with
    | none =>
      obtain rfl := Option.some.inj hstep
      exact h.enqueue x
    | some w =>
      simp only [State.next] at hstep
      split at hstep
      · obtain rfl := Option.some.inj hstep
        exact h.queuesAt _
      · obtain rfl := Option.some.inj hstep
        exact h.enqueue x
      · cases hstep
  | age w =>
    simp only [State.next] at hstep
    split at hstep
    · rename_i hpop
      obtain rfl := Option.some.inj hstep
      exact (h.depart (x := (_, _)) hpop).popped w
    · cases hstep
  | drain w =>
    simp only [State.next] at hstep
    split at hstep
    · rename_i hpc hpop
      obtain rfl := Option.some.inj hstep
      refine ((h.depart (x := (_, _)) hpop).popped w).drainAt ?_
      show [] = (s.drain w).held w
      rw [hpc]
      rfl
    · cases hstep
  | pull w =>
    simp only [State.next] at hstep
    split at hstep
    · rename_i i hpc
      have hidle : Pc.idle.held w = (s.drain w).held w := by
        rw [hpc]
        rfl
      split at hstep
      · split at hstep
        · rename_i hpop
          obtain rfl := Option.some.inj hstep
          exact h.pull (x := (_, _)) hpc hpop
        · obtain rfl := Option.some.inj hstep
          exact h.drainAt hidle
      · obtain rfl := Option.some.inj hstep
        exact h.drainAt hidle
    · cases hstep
  | stock w =>
    simp only [State.next] at hstep
    split at hstep
    · rename_i i x hpc
      split at hstep
      · obtain rfl := Option.some.inj hstep
        exact (h.queuesAt _).settle w (i + 1)
      · rename_i hfull
        obtain rfl := Option.some.inj hstep
        simp only [InTurn, hpc] at hturn
        obtain ⟨hempty, hlast⟩ := hturn hfull
        exact h.putBack hpc hempty hlast
    · cases hstep
  | popLocal w p =>
    simp only [State.next] at hstep
    split at hstep
    · obtain rfl := Option.some.inj hstep
      exact (h.queuesAt _).popped w
    · cases hstep
  | steal w p =>
    simp only [State.next] at hstep
    split at hstep
    · obtain rfl := Option.some.inj hstep
      exact h.queuesAt _
    · cases hstep

theorem inv_initial : Inv (State.initial : State Worker) := ⟨fun _ => rfl, fun _ => rfl⟩

theorem inv (h : Reachable ((system cfg Worker).restrict (InTurn cfg)) s) : Inv s := by
  induction h with
  | initial hi =>
    obtain rfl := hi
    exact inv_initial
  | step _ hstep ih => exact ih.step hstep.1 hstep.2

/-- **Tasks leave the global queue in the order in which they were pushed**, in every run in which
no task is put back out of its turn. -/
theorem leaves_in_order (h : Reachable ((system cfg Worker).restrict (InTurn cfg)) s) : s.Fifo :=
  (inv h).fifo

/-- A task put back out of its turn is out of order: it was pushed before those behind which it is
queued now, or before one that has left. -/
theorem putBack_in_turn (h : Inv s) {i : ℕ} (hpc : s.drain w = .holding i x)
    (hnodup : (s.pushedAt x.2).Nodup) (hfifo : ((s.putBack w x).drainAt w .idle).Fifo) :
    s.global x.2 = [] ∧ (s.departedAt x.2).getLast? = some ⟨x, some w⟩ := by
  have hbefore := h.fifo x.2
  have hafter : ((s.putBack w x).departedAt x.2).map (·.entry.1) ++ (s.global x.2 ++ [x.1]) =
      s.pushedAt x.2 := by
    have := hfifo x.2
    rwa [show ((s.putBack w x).drainAt w .idle).global x.2 = s.global x.2 ++ [x.1] from
      Function.update_self ..] at this
  have hmem : (⟨x, some w⟩ : Departure Worker) ∈ s.departedAt x.2 := by
    have hheld := h.held_departedAt hpc x.2
    rw [if_pos rfl] at hheld
    exact List.mem_of_mem_filter (hheld ▸ List.mem_singleton_self _)
  have hleft : x.1 ∈ s.left x.2 := List.mem_map_of_mem hmem
  rw [← hbefore] at hafter hnodup
  have hlast := congrArg List.getLast? hafter
  rw [← List.append_assoc, List.getLast?_concat] at hlast
  obtain hempty | ⟨rest, y, hrest⟩ := List.eq_nil_or_concat' (s.global x.2)
  · refine ⟨hempty, ?_⟩
    rw [hempty, List.append_nil, State.left, List.getLast?_map] at hlast
    obtain ⟨d, hd, hentry⟩ := Option.map_eq_some_iff.mp hlast.symm
    rw [hempty, List.append_nil] at hnodup
    rw [hd]
    exact congrArg some (List.inj_on_of_nodup_map hnodup (List.mem_of_getLast? hd) hmem hentry)
  · rw [hrest, ← List.append_assoc, List.getLast?_concat] at hlast
    obtain rfl := Option.some.inj hlast
    exact absurd rfl ((List.nodup_append.mp hnodup).2.2 _ hleft x.1 (hrest ▸ by simp))

/-! ### Two runs -/

/-- The state after these steps, if each can be taken. -/
def run (cfg : RuntimeConfig) : State Worker → List (Act Worker) → Option (State Worker)
  | s, [] => some s
  | s, a :: acts => (s.next cfg a).bind fun s => run cfg s acts

theorem reachable_run {acts : List (Act Worker)} (h : Reachable (system cfg Worker) s)
    (hrun : run cfg s acts = some s') : Reachable (system cfg Worker) s' := by
  induction acts generalizing s with
  | nil => exact Option.some.inj hrun ▸ h
  | cons a acts ih =>
    obtain ⟨u, hu, hrest⟩ := Option.bind_eq_some_iff.mp hrun
    exact ih (h.step hu) hrest

/-- A task from outside. -/
def submit (index : ℕ) : Act (Fin 1) := .enqueue none (⟨index, 0⟩, .Normal)

/-- Three tasks and a deque with one slot: the third is put back, and there is no other. -/
theorem leaves_in_order_putBack :
    let cfg : RuntimeConfig := ⟨.WorkStealing, false, 0⟩
    ∃ s : State (Fin 1), Reachable ((system cfg (Fin 1)).restrict (InTurn cfg)) s ∧ s.departed.length = 2 ∧
      s.Fifo := by
  intro cfg
  have h : Reachable ((system cfg (Fin 1)).restrict (InTurn cfg)) .initial := .initial rfl
  have h := h.step (l := submit 0) ⟨rfl, trivial⟩
  have h := h.step (l := submit 1) ⟨rfl, trivial⟩
  have h := h.step (l := submit 2) ⟨rfl, trivial⟩
  have h := h.step (l := Act.drain 0) ⟨rfl, trivial⟩
  have h := h.step (l := Act.pull 0) ⟨rfl, trivial⟩
  have h := h.step (l := Act.stock 0) ⟨rfl, fun hfull => absurd hfull (by decide)⟩
  have h := h.step (l := Act.pull 0) ⟨rfl, trivial⟩
  have h := h.step (l := Act.stock 0) ⟨rfl, fun _ => ⟨rfl, rfl⟩⟩
  exact ⟨_, h, rfl, leaves_in_order h⟩

/-- Five tasks and a deque with two slots: the fourth is put back behind the fifth, and leaves
after it. -/
theorem drain_reorders : ¬∀ s : State (Fin 1), Reachable (system ⟨.WorkStealing, false, 1⟩ (Fin 1)) s →
    ∀ p, s.left p <+: s.pushedAt p := by
  intro hall
  let cfg : RuntimeConfig := ⟨.WorkStealing, false, 1⟩
  let acts : List (Act (Fin 1)) := [submit 0, submit 1, submit 2, submit 3, submit 4, .drain 0, .pull 0,
    .stock 0, .pull 0, .stock 0, .pull 0, .stock 0, .popLocal 0 .Normal, .popLocal 0 .Normal, .drain 0]
  have hleft : ((run cfg .initial acts).map fun s => (s.left .Normal, s.pushedAt .Normal)) =
      some ([⟨0, 0⟩, ⟨1, 0⟩, ⟨2, 0⟩, ⟨4, 0⟩], [⟨0, 0⟩, ⟨1, 0⟩, ⟨2, 0⟩, ⟨3, 0⟩, ⟨4, 0⟩]) := by decide
  obtain ⟨s, hrun, hs⟩ := Option.map_eq_some_iff.mp hleft
  obtain ⟨hleft, hpushed⟩ := Prod.mk.inj hs
  have horder := hall s (reachable_run (.initial rfl) hrun) .Normal
  rw [hleft, hpushed] at horder
  exact absurd horder (by decide)

end Thunderbolt.Scheduler.Drain
