import Mathlib.Data.List.Basic
import Mathlib.Data.List.Range
import Mathlib.Logic.Function.Iterate
import Thunderbolt.Concurrent.System
import Thunderbolt.Concurrent.Threads

/-! Loops that claim their work off a shared cursor.

Some threads run the same loop: read the cursor and advance it, in one atomic step;
stop if the value read says so; else run the body of that value, one operation at a
time, and read the cursor again. There may be several such loops, each with a cursor
of its own, over one memory.

The values claimed are those read and not stopped at, each once, in the order of the
reads (`Inv.claimed`). If the bodies of different values commute, the memory at the
end is what the bodies leave when they run one after another in that order
(`serial`). -/
namespace Thunderbolt.Concurrent.Claims

variable {C V Op M Tid : Type*}

/-- The loops, one for each `c : C`. -/
structure Loops (C V Op M : Type*) where
  start : C → V
  /-- The read advances the cursor so. -/
  next : C → V → V
  stop : C → V → Bool
  /-- The body, an operation after the other. -/
  ops : C → V → List Op
  act : Op → M → M

inductive Pc (Op : Type*) where
  | claiming
  /-- In the body of the claim with this number; these operations are left. -/
  | running (k : ℕ) (left : List Op)
  | finished

/-- A value claimed, and the operations of its body done so far. -/
structure Claim (C V Op : Type*) where
  loop : C
  value : V
  done : List Op

structure State (C V Op M Tid : Type*) where
  cursor : C → V
  pc : Tid → Pc Op
  mem : M
  /-- How often the cursor was read. -/
  reads : C → ℕ
  /-- The claims, in their order. -/
  log : List (Claim C V Op)

section Step
variable [DecidableEq C] [DecidableEq Tid]

/-- The cursor of `c` is read. -/
def State.advance (L : Loops C V Op M) (s : State C V Op M Tid) (c : C) : State C V Op M Tid :=
  {s with
    cursor := Function.update s.cursor c (L.next c (s.cursor c))
    reads := Function.update s.reads c (s.reads c + 1)}

def State.add (s : State C V Op M Tid) (x : Claim C V Op) : State C V Op M Tid :=
  {s with log := s.log ++ [x]}

def State.pcAt (s : State C V Op M Tid) (t : Tid) (p : Pc Op) : State C V Op M Tid :=
  {s with pc := Function.update s.pc t p}

/-- The claim, one operation further. -/
def Claim.push (o : Op) (x : Claim C V Op) : Claim C V Op := {x with done := x.done ++ [o]}

/-- Thread `t` runs the loop `loop t`. -/
inductive Step (L : Loops C V Op M) (loop : Tid → C) :
    Tid → State C V Op M Tid → State C V Op M Tid → Prop where
  | claim {s t} : s.pc t = .claiming → L.stop (loop t) (s.cursor (loop t)) = false →
      Step L loop t s
        (((s.advance L (loop t)).add ⟨loop t, s.cursor (loop t), []⟩).pcAt t
          (.running s.log.length (L.ops (loop t) (s.cursor (loop t)))))
  | leave {s t} : s.pc t = .claiming → L.stop (loop t) (s.cursor (loop t)) = true →
      Step L loop t s ((s.advance L (loop t)).pcAt t .finished)
  | act {s t k o left} : s.pc t = .running k (o :: left) →
      Step L loop t s
        ({s with mem := L.act o s.mem, log := s.log.modify k (.push o)}.pcAt t (.running k left))
  | done {s t k} : s.pc t = .running k [] → Step L loop t s (s.pcAt t .claiming)

def initial (L : Loops C V Op M) (m : M) : State C V Op M Tid where
  cursor := L.start
  pc _ := .claiming
  mem := m
  reads _ := 0
  log := []

def system (L : Loops C V Op M) (loop : Tid → C) (m : M) :
    System (State C V Op M Tid) Tid :=
  ⟨fun s => s = initial L m, Step L loop⟩

end Step

/-- What the `k`-th read of the cursor sees. -/
def Loops.value (L : Loops C V Op M) (c : C) (k : ℕ) : V := (L.next c)^[k] (L.start c)

/-- The values seen by the first `k` reads. -/
def Loops.values (L : Loops C V Op M) (c : C) (k : ℕ) : List V := (List.range k).map (L.value c)

theorem Loops.values_succ (L : Loops C V Op M) (c : C) (k : ℕ) :
    L.values c (k + 1) = L.values c k ++ [L.value c k] := by
  simp [values, List.range_succ]

/-- The values claimed by one loop. -/
def State.claims [DecidableEq C] (s : State C V Op M Tid) (c : C) : List V :=
  s.log.filterMap fun x => if x.loop = c then some x.value else none

/-- All threads have left. -/
def State.Finished (s : State C V Op M Tid) : Prop := ∀ t, s.pc t = .finished

/-- How many threads have left the loop `c`. -/
def State.left [DecidableEq C] [Fintype Tid] (loop : Tid → C) (s : State C V Op M Tid) (c : C) : ℕ :=
  count (fun x : C × Pc Op => decide (x.1 = c) && x.2 matches .finished) fun t => (loop t, s.pc t)

/-! ### What every run keeps -/

/-- What the reads of the cursor have seen: values to claim, and values to stop at. -/
structure Reads [DecidableEq C] [Fintype Tid] (L : Loops C V Op M) (loop : Tid → C)
    (s : State C V Op M Tid) : Prop where
  cursor : ∀ c, s.cursor c = L.value c (s.reads c)
  claimed : ∀ c, s.claims c = (L.values c (s.reads c)).filter fun v => !L.stop c v
  left : ∀ c, s.left loop c = ((L.values c (s.reads c)).filter (L.stop c)).length

/-- How far the bodies are: each that has not ended is run by one thread. -/
structure Bodies (L : Loops C V Op M) (loop : Tid → C) (s : State C V Op M Tid) : Prop where
  running : ∀ t k left, s.pc t = .running k left →
    ∃ x, s.log[k]? = some x ∧ x.loop = loop t ∧ x.done ++ left = L.ops x.loop x.value
  distinct : ∀ t u k l l', s.pc t = .running k l → s.pc u = .running k l' → t = u
  ended : ∀ k x, s.log[k]? = some x →
    x.done = L.ops x.loop x.value ∨ ∃ t left, s.pc t = .running k left

theorem filterMap_modify {α β : Type*} {f : α → α} {g : α → Option β} (hg : ∀ x, g (f x) = g x)
    (l : List α) (k : ℕ) : (l.modify k f).filterMap g = l.filterMap g := by
  induction l generalizing k with
  | nil => simp
  | cons x l ih =>
    cases k with
    | zero => simp [List.filterMap_cons, hg]
    | succ k => simp [List.filterMap_cons, ih]

section Bodies
variable [DecidableEq Tid] {L : Loops C V Op M} {loop : Tid → C} {s : State C V Op M Tid} {t : Tid}

theorem pcAt_of_ne {s : State C V Op M Tid} {p : Pc Op} {u : Tid} (hu : u ≠ t) :
    (s.pcAt t p).pc u = s.pc u := Function.update_of_ne hu ..

theorem pcAt_self {s : State C V Op M Tid} {p : Pc Op} : (s.pcAt t p).pc t = p :=
  Function.update_self ..

/-- A thread with nothing left of a body goes to a counter outside the bodies. -/
theorem Bodies.outside (h : Bodies L loop s) {p : Pc Op}
    (hold : ∀ k left, s.pc t = .running k left → left = []) (hnew : ∀ k left, p ≠ .running k left) :
    Bodies L loop (s.pcAt t p) := by
  have hother : ∀ u k left, (s.pcAt t p).pc u = .running k left → s.pc u = .running k left := by
    intro u k left hu
    by_cases hut : u = t
    · subst hut
      rw [pcAt_self] at hu
      exact absurd hu (hnew k left)
    · rwa [pcAt_of_ne hut] at hu
  refine ⟨fun u k left hu => h.running u k left (hother u k left hu), fun u v k l l' hu hv =>
    h.distinct u v k l l' (hother u k l hu) (hother v k l' hv), fun k x hx => ?_⟩
  obtain hdone | ⟨u, left, hu⟩ := h.ended k x hx
  · exact .inl hdone
  · by_cases hut : u = t
    · subst hut
      obtain rfl := hold k left hu
      obtain ⟨y, hy, _, hops⟩ := h.running u k [] hu
      obtain rfl : x = y := Option.some.inj (hx.symm.trans hy)
      exact .inl (by simpa using hops)
    · exact .inr ⟨u, left, by rwa [pcAt_of_ne hut]⟩

theorem Bodies.claim (h : Bodies L loop s) (hpc : s.pc t = .claiming) {v : V} :
    Bodies L loop ((s.add ⟨loop t, v, []⟩).pcAt t (.running s.log.length (L.ops (loop t) v))) := by
  have hlt : ∀ u k left, s.pc u = .running k left → k < s.log.length := by
    intro u k left hu
    obtain ⟨x, hx, _⟩ := h.running u k left hu
    exact (List.getElem?_eq_some_iff.mp hx).1
  have hother : ∀ u k left, u ≠ t →
      ((s.add ⟨loop t, v, []⟩).pcAt t (.running s.log.length (L.ops (loop t) v))).pc u =
        .running k left → s.pc u = .running k left := by
    intro u k left hut hu
    rwa [pcAt_of_ne hut] at hu
  refine ⟨fun u k left hu => ?_, fun u w k l l' hu hw => ?_, fun k x hx => ?_⟩
  · by_cases hut : u = t
    · subst hut
      rw [pcAt_self] at hu
      obtain ⟨rfl, rfl⟩ := Pc.running.inj hu
      exact ⟨⟨loop u, v, []⟩, by simp [State.pcAt, State.add], rfl, rfl⟩
    · have hu := hother u k left hut hu
      obtain ⟨x, hx, hrest⟩ := h.running u k left hu
      exact ⟨x, by simpa [State.pcAt, State.add, List.getElem?_append_left (hlt u k left hu)] using hx,
        hrest⟩
  · by_cases hut : u = t
    · by_cases hwt : w = t
      · rw [hut, hwt]
      · subst hut
        rw [pcAt_self] at hu
        obtain ⟨rfl, rfl⟩ := Pc.running.inj hu
        exact absurd (hlt w _ l' (hother w _ l' hwt hw)) (lt_irrefl _)
    · by_cases hwt : w = t
      · subst hwt
        rw [pcAt_self] at hw
        obtain ⟨rfl, rfl⟩ := Pc.running.inj hw
        exact absurd (hlt u _ l (hother u _ l hut hu)) (lt_irrefl _)
      · exact h.distinct u w k l l' (hother u k l hut hu) (hother w k l' hwt hw)
  · have hx : (s.log ++ [⟨loop t, v, []⟩])[k]? = some x := hx
    by_cases hk : k < s.log.length
    · rw [List.getElem?_append_left hk] at hx
      obtain hdone | ⟨u, left, hu⟩ := h.ended k x hx
      · exact .inl hdone
      · have hut : u ≠ t := by
          intro heq
          obtain rfl := heq
          rw [hpc] at hu
          cases hu
        exact .inr ⟨u, left, by rwa [pcAt_of_ne hut]⟩
    · have hk' : k = s.log.length := by
        have := (List.getElem?_eq_some_iff.mp hx).1
        simp at this
        omega
      exact .inr ⟨t, _, by rw [pcAt_self, hk']⟩

theorem Bodies.act (h : Bodies L loop s) {k : ℕ} {o : Op} {left : List Op} {mem : M}
    (hpc : s.pc t = .running k (o :: left)) :
    Bodies L loop (({s with mem, log := s.log.modify k (.push o)} : State C V Op M Tid).pcAt t
      (.running k left)) := by
  have hother : ∀ u j l, u ≠ t → s.pc u = .running j l → j ≠ k := by
    intro u j l hut hu heq
    obtain rfl := heq
    exact hut (h.distinct u t j l _ hu hpc)
  obtain ⟨x, hx, hloop, hops⟩ := h.running t k _ hpc
  refine ⟨fun u j l hu => ?_, fun u w j l l' hu hw => ?_, fun j y hy => ?_⟩
  · by_cases hut : u = t
    · subst hut
      rw [pcAt_self] at hu
      obtain ⟨rfl, rfl⟩ := Pc.running.inj hu
      refine ⟨x.push o, by simp [State.pcAt, hx], hloop, ?_⟩
      rw [Claim.push, List.append_assoc]
      exact hops
    · rw [pcAt_of_ne hut] at hu
      obtain ⟨y, hy, hrest⟩ := h.running u j l hu
      exact ⟨y, by simpa [State.pcAt, List.getElem?_modify, (hother u j l hut hu).symm] using hy, hrest⟩
  · by_cases hut : u = t
    · by_cases hwt : w = t
      · rw [hut, hwt]
      · subst hut
        rw [pcAt_self] at hu
        obtain ⟨rfl, rfl⟩ := Pc.running.inj hu
        rw [pcAt_of_ne hwt] at hw
        exact absurd rfl (hother w _ l' hwt hw)
    · rw [pcAt_of_ne hut] at hu
      by_cases hwt : w = t
      · subst hwt
        rw [pcAt_self] at hw
        obtain ⟨rfl, rfl⟩ := Pc.running.inj hw
        exact absurd rfl (hother u _ l hut hu)
      · rw [pcAt_of_ne hwt] at hw
        exact h.distinct u w j l l' hu hw
  · by_cases hj : j = k
    · exact .inr ⟨t, left, by rw [pcAt_self, hj]⟩
    · have hy : s.log[j]? = some y := by
        simpa [State.pcAt, List.getElem?_modify, Ne.symm hj] using hy
      obtain hdone | ⟨u, l, hu⟩ := h.ended j y hy
      · exact .inl hdone
      · have hut : u ≠ t := by
          intro heq
          obtain rfl := heq
          rw [hpc] at hu
          exact hj (Pc.running.inj hu).1.symm
        exact .inr ⟨u, l, by rwa [pcAt_of_ne hut]⟩

omit [DecidableEq Tid] in
/-- When all threads have left, every body has been run to its end. -/
theorem Bodies.ended_finished (h : Bodies L loop s) (hfin : s.Finished) {k : ℕ} {x : Claim C V Op}
    (hx : s.log[k]? = some x) : x.done = L.ops x.loop x.value := by
  obtain hdone | ⟨t, left, ht⟩ := h.ended k x hx
  · exact hdone
  · rw [hfin t] at ht
    cases ht

omit [DecidableEq Tid] in
theorem Bodies.done_finished (h : Bodies L loop s) (hfin : s.Finished) :
    s.log.flatMap Claim.done = s.log.flatMap fun x => L.ops x.loop x.value := by
  apply List.flatMap_congr
  intro x hx
  obtain ⟨k, hk⟩ := List.mem_iff_getElem?.mp hx
  exact h.ended_finished hfin hk

end Bodies

/-- One operation more has been done. -/
theorem flatMap_push {l : List (Claim C V Op)} {k : ℕ} (hk : k < l.length) (o : Op) :
    ((l.modify k (.push o)).flatMap Claim.done).Perm (l.flatMap Claim.done ++ [o]) := by
  have hsplit : l.flatMap Claim.done =
      (l.take k).flatMap Claim.done ++ (l[k].done ++ (l.drop (k + 1)).flatMap Claim.done) := by
    have hl : l = l.take k ++ l[k] :: l.drop (k + 1) := by
      rw [← List.drop_eq_getElem_cons hk, List.take_append_drop]
    exact (congrArg (List.flatMap Claim.done) hl).trans
      (by simp only [List.flatMap_append, List.flatMap_cons])
  rw [List.modify_eq_take_cons_drop hk, hsplit]
  simp only [List.flatMap_append, List.flatMap_cons, Claim.push, List.append_assoc]
  exact ((List.perm_append_comm : ([o] ++ _).Perm _).append_left _).append_left _

section Runs
variable [DecidableEq C] [DecidableEq Tid] {L : Loops C V Op M} {loop : Tid → C}
  {s s' : State C V Op M Tid} {t : Tid} {m : M}

theorem left_pcAt [Fintype Tid] (loop : Tid → C) (s : State C V Op M Tid) (t : Tid) (p : Pc Op) (c : C) :
    (s.pcAt t p).left loop c + (decide (loop t = c) && s.pc t matches .finished).toNat =
      s.left loop c + (decide (loop t = c) && p matches .finished).toNat := by
  have hmove : (fun u => (loop u, (s.pcAt t p).pc u)) =
      Function.update (fun u => (loop u, s.pc u)) t (loop t, p) := by
    funext u
    by_cases hu : u = t
    · subst hu
      simp [State.pcAt]
    · simp [State.pcAt, hu]
  unfold State.left
  rw [hmove]
  exact count_update _ _ t _

omit [DecidableEq Tid] in
/-- What one more read sees. -/
theorem Reads.advance [Fintype Tid] (h : Reads L loop s) (c : C) :
    (s.advance L (loop t)).cursor c = L.value c ((s.advance L (loop t)).reads c) ∧
      L.values c ((s.advance L (loop t)).reads c) = L.values c (s.reads c) ++
        if c = loop t then [s.cursor (loop t)] else [] := by
  by_cases hc : c = loop t
  · subst hc
    simp [State.advance, Loops.values_succ, h.cursor, Loops.value, Function.iterate_succ_apply']
  · simp [State.advance, hc, h.cursor]

/-- A thread that has not left moves inside the loop. -/
theorem left_pcAt_same [Fintype Tid] (s : State C V Op M Tid) (t : Tid) (p : Pc Op)
    (hold : (s.pc t matches .finished) = false) (hnew : (p matches .finished) = false) (c : C) :
    (s.pcAt t p).left loop c = s.left loop c := by
  have := left_pcAt loop s t p c
  rw [hold, hnew] at this
  omega

theorem Reads.step [Fintype Tid] (h : Reads L loop s) (hstep : Step L loop t s s') :
    Reads L loop s' := by
  cases hstep with
  | claim hpc hgo =>
    refine ⟨fun c => (h.advance c).1, fun c => ?_, fun c => ?_⟩
    · show (s.log ++ [_]).filterMap _ = List.filter _ (L.values c ((s.advance L (loop t)).reads c))
      rw [(h.advance c).2, List.filterMap_append, List.filter_append, ← h.claimed c]
      congr 1
      by_cases hc : c = loop t
      · subst hc
        simp [hgo]
      · simp [hc, Ne.symm hc]
    · rw [left_pcAt_same _ _ _ (by simp [State.add, State.advance, hpc]) rfl]
      show s.left loop c = (List.filter _ (L.values c ((s.advance L (loop t)).reads c))).length
      rw [(h.advance c).2, List.filter_append, h.left c]
      by_cases hc : c = loop t
      · subst hc
        simp [hgo]
      · simp [hc]
  | leave hpc hstop =>
    refine ⟨fun c => (h.advance c).1, fun c => ?_, fun c => ?_⟩
    · show s.claims c = List.filter _ (L.values c ((s.advance L (loop t)).reads c))
      rw [(h.advance c).2, List.filter_append, h.claimed c]
      by_cases hc : c = loop t
      · subst hc
        simp [hstop]
      · simp [hc]
    · have hleft := left_pcAt loop (s.advance L (loop t)) t .finished c
      have hpc' : (s.advance L (loop t)).pc t = .claiming := hpc
      have hsame : (s.advance L (loop t)).left loop c = s.left loop c := rfl
      rw [hpc', hsame] at hleft
      show _ = (List.filter _ (L.values c ((s.advance L (loop t)).reads c))).length
      rw [(h.advance c).2, List.filter_append, List.length_append, ← h.left c]
      by_cases hc : c = loop t
      · subst hc
        simp [hstop] at hleft ⊢
        omega
      · simp [hc, Ne.symm hc] at hleft ⊢
        omega
  | @act _ _ k o left hpc =>
    refine ⟨h.cursor, fun c => ?_, fun c => ?_⟩
    · exact (filterMap_modify (f := Claim.push o)
        (g := fun x => if x.loop = c then some x.value else none) (fun _ => rfl) s.log k).trans
        (h.claimed c)
    · rw [left_pcAt_same _ _ _ (by simp [hpc]) rfl]
      exact h.left c
  | done hpc =>
    refine ⟨h.cursor, h.claimed, fun c => ?_⟩
    rw [left_pcAt_same _ _ _ (by simp [hpc]) rfl]
    exact h.left c

theorem Bodies.step (h : Bodies L loop s) (hstep : Step L loop t s s') : Bodies L loop s' := by
  cases hstep with
  | claim hpc => 
    have h' : Bodies L loop (s.advance L (loop t)) := ⟨h.running, h.distinct, h.ended⟩
    exact h'.claim hpc
  | leave hpc =>
    have h' : Bodies L loop (s.advance L (loop t)) := ⟨h.running, h.distinct, h.ended⟩
    refine h'.outside ?_ nofun
    intro k left hrun
    cases hpc.symm.trans hrun
  | act hpc => exact h.act hpc
  | done hpc =>
    refine h.outside ?_ nofun
    intro k left hrun
    cases hpc.symm.trans hrun
    rfl

theorem reads [Fintype Tid] (h : Reachable (system L loop m) s) : Reads L loop s := by
  refine h.invariant ?_ fun _ _ _ _ hreads hstep => hreads.step hstep
  intro _ hi
  obtain rfl := hi
  refine ⟨fun _ => rfl, fun _ => rfl, fun c => ?_⟩
  exact count_eq_zero.mpr fun _ => by simp [initial]

theorem bodies (h : Reachable (system L loop m) s) : Bodies L loop s := by
  refine h.invariant ?_ fun _ _ _ _ hbodies hstep => hbodies.step hstep
  intro _ hi
  obtain rfl := hi
  exact ⟨nofun, nofun, fun k x hx => by simp [initial] at hx⟩

/-- What an operation establishes and every operation keeps holds once it has been done. -/
theorem established {P : Op → M → Prop} (hact : ∀ o m, P o (L.act o m))
    (hkeep : ∀ o p m, P o m → P o (L.act p m)) (h : Reachable (system L loop m) s) :
    ∀ o ∈ s.log.flatMap Claim.done, P o s.mem := by
  induction h with
  | initial hi =>
    obtain rfl := hi
    exact nofun
  | @step t s s' hr hs ih =>
    cases hs with
    | claim =>
      intro o ho
      apply ih o
      simpa [State.add, State.pcAt, State.advance] using ho
    | @act _ _ k p left hpc =>
      intro o ho
      obtain ⟨x, hx, _⟩ := (bodies hr).running t k _ hpc
      have hk : k < s.log.length := (List.getElem?_eq_some_iff.mp hx).1
      obtain ho | ho := List.mem_append.mp ((flatMap_push hk p).mem_iff.mp ho)
      · exact hkeep o p _ (ih o ho)
      · obtain rfl := List.mem_singleton.mp ho
        exact hact o _
    | leave | done => exact ih

end Runs

/-! ### When the loops end -/

/-- The threads that run the loop `c`. -/
def threads [DecidableEq C] [Fintype Tid] (loop : Tid → C) (c : C) : ℕ :=
  (Finset.univ.filter fun t => loop t = c).card

/-- The loop `c` stops at every read after the first `m c`, until each of its threads has
read so once. -/
def Loops.StopsAfter [DecidableEq C] [Fintype Tid] (L : Loops C V Op M) (loop : Tid → C)
    (m : C → ℕ) : Prop :=
  ∀ c k, k < m c + threads loop c → (L.stop c (L.value c k) = true ↔ m c ≤ k)

theorem values_filter {L : Loops C V Op M} {c : C} {m R : ℕ}
    (h : ∀ k < R, L.stop c (L.value c k) = true ↔ m ≤ k) :
    (L.values c R).filter (fun v => !L.stop c v) = L.values c (min R m) ∧
      ((L.values c R).filter (L.stop c)).length = R - m := by
  induction R with
  | zero => simp [Loops.values]
  | succ R ih =>
    obtain ⟨hgo, hstop⟩ := ih fun k hk => h k (by omega)
    have hR := h R (by omega)
    rw [Loops.values_succ, List.filter_append, List.filter_append, List.length_append, hgo, hstop]
    by_cases hm : m ≤ R
    · have hs := hR.mpr hm
      have hmin : min (R + 1) m = min R m := by omega
      simp only [List.filter_singleton, hs, hmin]
      refine ⟨by simp, ?_⟩
      simp
      omega
    · have hs : L.stop c (L.value c R) = false := by
        rw [← Bool.not_eq_true, hR]
        exact hm
      have hmin : min (R + 1) m = min R m + 1 := by omega
      have hR' : min R m = R := by omega
      rw [hmin, Loops.values_succ, hR']
      simp [hs]
      omega

section Ends
variable [DecidableEq C] [DecidableEq Tid] [Fintype Tid] {L : Loops C V Op M} {loop : Tid → C}
  {s : State C V Op M Tid} {t : Tid} {m₀ : M} {m : C → ℕ}

omit [DecidableEq Tid] in
theorem left_lt (loop : Tid → C) (ht : s.pc t ≠ .finished) : s.left loop (loop t) < threads loop (loop t) := by
  apply Finset.card_lt_card
  rw [Finset.ssubset_iff_of_subset]
  · refine ⟨t, by simp, ?_⟩
    cases hpc : s.pc t with
    | finished => exact absurd hpc ht
    | _ => simp [hpc]
  · intro u hu
    simp only [Finset.mem_filter, Finset.mem_univ, Bool.and_eq_true, decide_eq_true_eq, true_and] at hu ⊢
    exact hu.1

omit [DecidableEq Tid] in
theorem left_finished (hfin : s.Finished) (c : C) : s.left loop c = threads loop c := by
  simp [State.left, threads, count, hfin _]

theorem reads_le (hL : L.StopsAfter loop m) (h : Reachable (system L loop m₀) s) (c : C) :
    s.reads c ≤ m c + threads loop c := by
  induction h with
  | initial hi =>
    obtain rfl := hi
    exact Nat.zero_le _
  | @step t s s' hr hstep ih =>
    -- Who reads the cursor has not left, so it has not been read so often.
    have hread : s.pc t = .claiming →
        (s.advance L (loop t)).reads c ≤ m c + threads loop c := by
      intro hpc
      by_cases hc : c = loop t
      · subst hc
        have hleft := left_lt loop (s := s) (t := t) (by simp [hpc])
        rw [(reads hr).left, (values_filter fun k hk => hL _ k (by omega)).2] at hleft
        simp only [State.advance, Function.update_self]
        omega
      · simpa [State.advance, hc] using ih
    cases hstep with
    | claim hpc | leave hpc => exact hread hpc
    | act | done => exact ih

/-- When all threads have left, the values claimed are the first `m c`. -/
theorem claims_finished (hL : L.StopsAfter loop m) (hm : ∀ c, 0 < m c → 0 < threads loop c)
    (h : Reachable (system L loop m₀) s) (hfin : s.Finished) (c : C) :
    s.claims c = L.values c (m c) := by
  have hle := reads_le hL h c
  obtain ⟨hgo, hstop⟩ := values_filter (R := s.reads c) fun k hk => hL c k (by omega)
  rw [← (reads h).claimed] at hgo
  rw [← (reads h).left, left_finished hfin] at hstop
  have hpos := hm c
  rw [hgo]
  congr 1
  omega

/-- What is left of the body a thread is in. -/
def Pc.weight : Pc Op → ℕ
  | running _ left => left.length + 1
  | _ => 0

/-- What is still to be done, when no body has more than `B` operations and the cursors
are read no more than `bound` times. -/
def State.measure [Fintype C] (B : ℕ) (bound : C → ℕ) (s : State C V Op M Tid) : ℕ :=
  ∑ c, (B + 2) * (bound c - s.reads c) + ∑ t, (s.pc t).weight

omit [DecidableEq C] in
theorem measure_pcAt [Fintype C] (B : ℕ) (bound : C → ℕ) (s : State C V Op M Tid) (t : Tid) (p : Pc Op) :
    (s.pcAt t p).measure B bound + (s.pc t).weight = s.measure B bound + p.weight := by
  have := sum_update Pc.weight s.pc t p
  simp only [State.measure, State.pcAt]
  omega

omit [DecidableEq Tid] in
theorem measure_advance [Fintype C] (B : ℕ) (bound : C → ℕ) (s : State C V Op M Tid) (c : C)
    (hlt : s.reads c < bound c) :
    (s.advance L c).measure B bound + (B + 2) = s.measure B bound := by
  have hrem : (fun d => bound d - (s.advance L c).reads d) =
      Function.update (fun d => bound d - s.reads d) c (bound c - s.reads c - 1) := by
    funext d
    by_cases hd : d = c
    · subst hd
      simp [State.advance]
      omega
    · simp [State.advance, hd]
  have hsum : ∑ d, (B + 2) * (bound d - (s.advance L c).reads d) + (B + 2) * (bound c - s.reads c) =
      ∑ d, (B + 2) * (bound d - s.reads d) + (B + 2) * (bound c - s.reads c - 1) := by
    have := sum_update (fun k => (B + 2) * k) (fun d => bound d - s.reads d) c
      (bound c - s.reads c - 1)
    rwa [← hrem] at this
  have hmul : (B + 2) * (bound c - s.reads c) = (B + 2) * (bound c - s.reads c - 1) + (B + 2) := by
    rw [← Nat.mul_succ]
    congr 1
    omega
  show ∑ d, (B + 2) * (bound d - (s.advance L c).reads d) + ∑ t, (s.pc t).weight + (B + 2) =
    ∑ d, (B + 2) * (bound d - s.reads d) + ∑ t, (s.pc t).weight
  omega

/-- A thread that has not left can take a step, and then less is to be done. -/
theorem exists_step [Fintype C] {B : ℕ} (hL : L.StopsAfter loop m) (hB : ∀ c v, (L.ops c v).length ≤ B)
    (h : Reachable (system L loop m₀) s) (ht : s.pc t ≠ .finished) :
    ∃ s', Step L loop t s s' ∧
      s'.measure B (fun c => m c + threads loop c) < s.measure B fun c => m c + threads loop c := by
  cases hpc : s.pc t with
  | finished => exact absurd hpc ht
  | claiming =>
    have hlt : s.reads (loop t) < m (loop t) + threads loop (loop t) := by
      have hle := reads_le hL h (loop t)
      have hleft := left_lt loop ht
      rw [(reads h).left, (values_filter fun k hk => hL _ k (by omega)).2] at hleft
      omega
    have hadvance := measure_advance (L := L) B (fun c => m c + threads loop c) s (loop t) hlt
    have hpc' : (s.advance L (loop t)).pc t = .claiming := hpc
    cases hstop : L.stop (loop t) (s.cursor (loop t)) with
    | true =>
      refine ⟨_, .leave hpc hstop, ?_⟩
      have hmove := measure_pcAt B (fun c => m c + threads loop c) (s.advance L (loop t)) t .finished
      rw [hpc'] at hmove
      simp only [Pc.weight] at hmove
      omega
    | false =>
      refine ⟨_, .claim hpc hstop, ?_⟩
      have hmove := measure_pcAt B (fun c => m c + threads loop c)
        ((s.advance L (loop t)).add ⟨loop t, s.cursor (loop t), []⟩) t
        (.running s.log.length (L.ops (loop t) (s.cursor (loop t))))
      have hadd : ((s.advance L (loop t)).add ⟨loop t, s.cursor (loop t), []⟩).measure B
          (fun c => m c + threads loop c) = (s.advance L (loop t)).measure B
          fun c => m c + threads loop c := rfl
      have hpc'' : ((s.advance L (loop t)).add ⟨loop t, s.cursor (loop t), []⟩).pc t = .claiming := hpc
      have hlen := hB (loop t) (s.cursor (loop t))
      rw [hpc''] at hmove
      simp only [Pc.weight] at hmove
      omega
  | running k left =>
    cases left with
    | nil =>
      refine ⟨_, .done hpc, ?_⟩
      have hmove := measure_pcAt B (fun c => m c + threads loop c) s t .claiming
      rw [hpc] at hmove
      simp only [Pc.weight, List.length_nil] at hmove
      omega
    | cons o left =>
      refine ⟨_, .act hpc, ?_⟩
      have hmove := measure_pcAt B (fun c => m c + threads loop c)
        ({s with mem := L.act o s.mem, log := s.log.modify k (.push o)} : State C V Op M Tid) t
        (.running k left)
      have hsame : ({s with mem := L.act o s.mem, log := s.log.modify k (.push o)} :
          State C V Op M Tid).measure B (fun c => m c + threads loop c) =
          s.measure B fun c => m c + threads loop c := rfl
      simp only [hpc, Pc.weight, List.length_cons] at hmove
      omega

/-- **The loops end**: if they stop after finitely many reads, and no body is longer than
`B`, then whatever has happened all threads can still leave. -/
theorem finishes [Fintype C] {B : ℕ} (hL : L.StopsAfter loop m) (hB : ∀ c v, (L.ops c v).length ≤ B)
    (h : Reachable (system L loop m₀) s) :
    ∃ s', Reachable ((system L loop m₀).startingAt s) s' ∧ s'.Finished := by
  apply h.exists_of_measure (State.measure B fun c => m c + threads loop c)
  intro s hr hnot
  obtain ⟨t, ht⟩ := not_forall.mp hnot
  exact ⟨t, exists_step hL hB hr ht⟩

end Ends

/-! ### Bodies one after another -/

/-- The operations, in order. -/
def Loops.run (L : Loops C V Op M) (m : M) (ops : List Op) : M := ops.foldl (fun m o => L.act o m) m

/-- Different values are claimed, and operations of the bodies of different values
commute. -/
structure Loops.Independent (L : Loops C V Op M) : Prop where
  fresh : ∀ c, Function.Injective (L.value c)
  comm : ∀ {c v d w o p}, (c, v) ≠ (d, w) → o ∈ L.ops c v → p ∈ L.ops d w →
    ∀ m, L.act o (L.act p m) = L.act p (L.act o m)

/-- What was claimed, and by which loop. -/
def Claim.key (x : Claim C V Op) : C × V := (x.loop, x.value)

section Serial
variable {L : Loops C V Op M}

theorem run_append (m : M) (a b : List Op) : L.run m (a ++ b) = L.run (L.run m a) b :=
  List.foldl_append

/-- An operation that commutes with others may be done before them. -/
theorem act_run {o : Op} {ops : List Op} (h : ∀ p ∈ ops, ∀ m, L.act o (L.act p m) = L.act p (L.act o m))
    (m : M) : L.act o (L.run m ops) = L.run (L.act o m) ops := by
  induction ops generalizing m with
  | nil => rfl
  | cons p ops ih =>
    have hp := h p List.mem_cons_self m
    have hrest := ih (fun q hq => h q (List.mem_cons_of_mem p hq)) (L.act p m)
    show L.act o (L.run (L.act p m) ops) = L.run (L.act p (L.act o m)) ops
    rw [hrest, hp]

/-- So may a whole body. -/
theorem run_comm {a b : List Op}
    (h : ∀ o ∈ a, ∀ p ∈ b, ∀ m, L.act o (L.act p m) = L.act p (L.act o m)) (m : M) :
    L.run (L.run m a) b = L.run (L.run m b) a := by
  induction a generalizing m with
  | nil => rfl
  | cons o a ih =>
    have hrest := ih (fun q hq => h q (List.mem_cons_of_mem o hq)) (L.act o m)
    have ho := act_run (fun p hp => h o List.mem_cons_self p hp) m
    show L.run (L.run (L.act o m) a) b = L.run (L.act o (L.run m b)) a
    rw [hrest, ho]

/-- The bodies of different values, in whatever order. -/
theorem Loops.Independent.run_perm (h : L.Independent) {keys keys' : List (C × V)}
    (hperm : keys.Perm keys') (m : M) :
    L.run m (keys.flatMap fun x => L.ops x.1 x.2) = L.run m (keys'.flatMap fun x => L.ops x.1 x.2) := by
  have hfold : ∀ (l : List (C × V)) (m : M), L.run m (l.flatMap fun x => L.ops x.1 x.2) =
      l.foldl (fun m x => L.run m (L.ops x.1 x.2)) m := by
    intro l
    induction l with
    | nil => exact fun _ => rfl
    | cons x l ih =>
      intro m
      rw [List.flatMap_cons, run_append, ih]
      rfl
  rw [hfold, hfold]
  refine hperm.foldl_eq' ?_ m
  intro x _ y _ m
  by_cases hxy : x = y
  · rw [hxy]
  · exact run_comm (fun o ho p hp => h.comm hxy ho hp) m

theorem nodup_keys [DecidableEq C] {l : List (Claim C V Op)}
    (h : ∀ c, (l.filterMap fun x => if x.loop = c then some x.value else none).Nodup) :
    (l.map Claim.key).Nodup := by
  induction l with
  | nil => simp
  | cons x l ih =>
    rw [List.map_cons, List.nodup_cons]
    refine ⟨fun hmem => ?_, ih fun c => ?_⟩
    · obtain ⟨y, hy, hkey⟩ := List.mem_map.mp hmem
      obtain ⟨hloop, hvalue⟩ := Prod.mk.inj hkey
      have hx := h x.loop
      rw [List.filterMap_cons, if_pos rfl, List.nodup_cons] at hx
      exact hx.1 (List.mem_filterMap.mpr ⟨y, hy, (if_pos hloop).trans (congrArg some hvalue)⟩)
    · refine (h c).sublist ?_
      exact (List.sublist_cons_self x l).filterMap _

variable [DecidableEq C] [DecidableEq Tid] {loop : Tid → C} {s : State C V Op M Tid} {m : M}

theorem keys_nodup [Fintype Tid] (hL : L.Independent) (h : Reachable (system L loop m) s) :
    (s.log.map Claim.key).Nodup := by
  apply nodup_keys
  intro c
  have hclaimed := (reads h).claimed c
  unfold State.claims at hclaimed
  rw [hclaimed]
  exact (List.nodup_range.map (hL.fresh c)).filter _

omit [DecidableEq C] [DecidableEq Tid] in
/-- The operations done are those of the body, as far as it has got. -/
theorem Bodies.done_sub (h : Bodies L loop s) {x : Claim C V Op} (hx : x ∈ s.log) {o : Op}
    (ho : o ∈ x.done) : o ∈ L.ops x.loop x.value := by
  obtain ⟨k, hk⟩ := List.mem_iff_getElem?.mp hx
  obtain hdone | ⟨t, left, ht⟩ := h.ended k x hk
  · exact hdone ▸ ho
  · obtain ⟨y, hy, _, hops⟩ := h.running t k left ht
    obtain rfl : x = y := Option.some.inj (hk.symm.trans hy)
    exact hops ▸ List.mem_append_left _ ho

/-- The memory is what the operations done leave, body after body. -/
theorem mem_eq [Fintype Tid] (hL : L.Independent) (h : Reachable (system L loop m) s) :
    s.mem = L.run m (s.log.flatMap Claim.done) := by
  induction h with
  | initial hi =>
    obtain rfl := hi
    rfl
  | @step t s s' hr hstep ih =>
    cases hstep with
    | claim =>
      refine ih.trans ?_
      show _ = L.run m ((s.log ++ [_]).flatMap Claim.done)
      simp
    | leave | done => exact ih
    | @act _ _ k o left hpc =>
      obtain ⟨x, hx, _, hops⟩ := (bodies hr).running _ _ _ hpc
      obtain ⟨hk, hx'⟩ := List.getElem?_eq_some_iff.mp hx
      have hsplit : s.log = s.log.take k ++ x :: s.log.drop (k + 1) := by
        rw [← hx', ← List.drop_eq_getElem_cons hk, List.take_append_drop]
      have hmodify : s.log.modify k (.push o) = s.log.take k ++ x.push o :: s.log.drop (k + 1) := by
        rw [List.modify_eq_take_cons_drop hk, hx']
      show L.act o s.mem = L.run m ((s.log.modify k (.push o)).flatMap Claim.done)
      rw [hmodify, ih]
      conv_lhs => rw [hsplit]
      simp only [List.flatMap_append, List.flatMap_cons, Claim.push, run_append]
      apply act_run
      intro p hp
      -- The claims behind this one are of other values.
      obtain ⟨y, hy, hpy⟩ := List.mem_flatMap.mp hp
      have hne : x.key ≠ y.key := by
        have hnodup := keys_nodup hL hr
        rw [hsplit, List.map_append, List.map_cons] at hnodup
        have := (List.nodup_append.mp hnodup).2.1
        intro heq
        exact (List.nodup_cons.mp this).1 (heq ▸ List.mem_map_of_mem hy)
      apply hL.comm hne
      · exact hops ▸ List.mem_append_right _ List.mem_cons_self
      · exact (bodies hr).done_sub (hsplit ▸ List.mem_append_right _ (List.mem_cons_of_mem x hy)) hpy

/-- **Claims are serializable**: when all threads have left, the memory is what the
bodies of the values claimed leave one after another, in any order. -/
theorem serial [Fintype Tid] (hL : L.Independent) (h : Reachable (system L loop m) s)
    (hfin : s.Finished) {keys : List (C × V)} (hkeys : (s.log.map Claim.key).Perm keys) :
    s.mem = L.run m (keys.flatMap fun x => L.ops x.1 x.2) := by
  rw [mem_eq hL h, ← hL.run_perm hkeys, List.flatMap_map, (bodies h).done_finished hfin]
  rfl

end Serial

end Thunderbolt.Concurrent.Claims
