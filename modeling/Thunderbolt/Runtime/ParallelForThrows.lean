import Thunderbolt.Runtime.ParallelForProofs

/-! `parallel_for` with a body that throws.

The exception leaves the loop in which the task claims its chunks, and is caught outside, by
whoever executes the task: the task claims no more. Chunks are claimed in their order, so
what is lost depends on the chunks alone, not on the interleaving: a task that has claimed a
chunk on which the body throws is `doomed`, and when all are the rest of the range is left. -/
namespace Thunderbolt.Runtime.ParallelFor
open Concurrent

namespace Throws

/-- Where a task is. -/
inductive Pc where
  | claiming
  /-- In the body, on the chunk that begins here. -/
  | running (lo : ℕ)
  /-- Behind the loop, or left by an exception. -/
  | finished

structure State (c : Call) where
  cursor : ℕ
  pc : Fin c.task_count → Pc
  /-- The chunks the body was invoked on. -/
  invoked : List Chunk
  /-- How often the cursor was read. -/
  reads : ℕ
  /-- The values claimed, in their order. -/
  claimed : List ℕ

variable {c : Call} {throws : Chunk → Bool} {s s' : State c} {t : Fin c.task_count}

def State.pcAt (s : State c) (t : Fin c.task_count) (p : Pc) : State c :=
  {s with pc := Function.update s.pc t p}

/-- The body throws on the chunks of `throws`. -/
inductive Step (c : Call) (throws : Chunk → Bool) : Fin c.task_count → State c → State c → Prop where
  | claim {s : State c} {t : Fin c.task_count} : s.pc t = .claiming → s.cursor < c.end_ →
      Step c throws t s
        ({s with
          cursor := (s.cursor + c.step) % size
          reads := s.reads + 1
          claimed := s.claimed ++ [s.cursor]}.pcAt t (.running s.cursor))
  | leave {s : State c} {t : Fin c.task_count} : s.pc t = .claiming → c.end_ ≤ s.cursor →
      Step c throws t s
        ({s with cursor := (s.cursor + c.step) % size, reads := s.reads + 1}.pcAt t .finished)
  | body {s : State c} {t : Fin c.task_count} {lo : ℕ} : s.pc t = .running lo →
      Step c throws t s
        ({s with invoked := s.invoked ++ [(lo, c.hi lo)]}.pcAt t
          (if throws (lo, c.hi lo) then .finished else .claiming))

def system (c : Call) (throws : Chunk → Bool) : System (State c) (Fin c.task_count) :=
  ⟨fun s => s = ⟨c.begin, fun _ => .claiming, [], 0, []⟩, Step c throws⟩

/-- The call returns: all tasks have ended. -/
def State.Finished (s : State c) : Prop := ∀ t, s.pc t = .finished

end Throws

namespace Call

/-- The chunks of the range, in their order. -/
def split (c : Call) : List Chunk :=
  (List.range c.batches).map fun k => (c.begin + k * c.step, min (c.begin + (k + 1) * c.step) c.end_)

/-- Whenever the call returns, the body has been invoked exactly once on every chunk. -/
def Complete (c : Call) (throws : Chunk → Bool) : Prop :=
  ∀ s, Reachable (Throws.system c throws) s → s.Finished → s.invoked.Perm c.split

end Call

namespace Throws
variable {c : Call} {throws : Chunk → Bool} {s s' : State c} {t : Fin c.task_count}

/-! ### What every run keeps -/

/-- The task claims no more. -/
def doomed (c : Call) (throws : Chunk → Bool) : Pc → Bool
  | .claiming => false
  | .running lo => throws (lo, c.hi lo)
  | .finished => true

/-- The task is in the body, on this chunk. -/
def inBody (c : Call) (x : Chunk) : Pc → Bool
  | .running lo => (lo, c.hi lo) = x
  | _ => false

/-- The values claimed are those read and not stopped at. A task is doomed for each read that
stopped it and for each chunk claimed that throws. -/
structure Inv (throws : Chunk → Bool) (s : State c) : Prop where
  cursor : s.cursor = c.loops.value () s.reads
  claimed : s.claimed = (c.loops.values () s.reads).filter fun v => !c.loops.stop () v
  doomed : count (doomed c throws) s.pc =
    ((c.loops.values () s.reads).filter (c.loops.stop ())).length + (c.chunks s.claimed).countP throws
  /-- Who claimed last was not doomed. -/
  before : s.claimed ≠ [] → (c.chunks s.claimed.dropLast).countP throws < c.task_count
  invoked : ∀ x, s.invoked.count x + count (inBody c x) s.pc = (c.chunks s.claimed).count x

theorem chunks_append (a b : List ℕ) : c.chunks (a ++ b) = c.chunks a ++ c.chunks b :=
  List.map_append

theorem stop_iff {v : ℕ} : c.loops.stop () v = true ↔ c.end_ ≤ v := decide_eq_true_iff

/-- A task that is not doomed has not claimed a chunk that throws. -/
theorem Inv.few (h : Inv throws s) (ht : s.pc t = .claiming) :
    ((c.loops.values () s.reads).filter (c.loops.stop ())).length + (c.chunks s.claimed).countP throws <
      c.task_count := by
  have hlt : count (Throws.doomed c throws) s.pc < Fintype.card (Fin c.task_count) :=
    count_lt_card (t := t) (by rw [ht]; rfl)
  rw [h.doomed, Fintype.card_fin] at hlt
  exact hlt

/-- The cursor advances. -/
theorem Inv.next (h : Inv throws s) : (s.cursor + c.step) % size = c.loops.value () (s.reads + 1) := by
  rw [h.cursor, Claims.Loops.value, Claims.Loops.value, Function.iterate_succ_apply']
  rfl

theorem countP_chunk (lo : ℕ) : (c.chunks [lo]).countP throws = (throws (lo, c.hi lo)).toNat := by
  show [(lo, c.hi lo)].countP throws = _
  rw [List.countP_singleton]
  cases throws (lo, c.hi lo) <;> rfl

theorem Inv.claim (h : Inv throws s) (hpc : s.pc t = .claiming) (hgo : s.cursor < c.end_) :
    Inv throws ({s with
      cursor := (s.cursor + c.step) % size
      reads := s.reads + 1
      claimed := s.claimed ++ [s.cursor]}.pcAt t (.running s.cursor)) := by
  have hstop : c.loops.stop () (c.loops.value () s.reads) = false := by
    rw [← h.cursor]
    exact decide_eq_false (Nat.not_le_of_lt hgo)
  refine ⟨h.next, ?_, ?_, fun _ => ?_, fun x => ?_⟩
  · show s.claimed ++ [s.cursor] =
      (c.loops.values () (s.reads + 1)).filter fun v => !c.loops.stop () v
    rw [Claims.Loops.values_succ, List.filter_append, ← h.claimed, h.cursor,
      List.filter_singleton, hstop]
    rfl
  · show count _ (Function.update s.pc t _) =
      ((c.loops.values () (s.reads + 1)).filter (c.loops.stop ())).length +
        (c.chunks (s.claimed ++ [s.cursor])).countP throws
    have hdoomed := count_update (Throws.doomed c throws) s.pc t (.running s.cursor)
    rw [h.doomed, hpc] at hdoomed
    rw [Claims.Loops.values_succ, List.filter_append, List.filter_singleton, hstop, chunks_append,
      List.countP_append, countP_chunk]
    simp only [Throws.doomed, Bool.toNat_false] at hdoomed
    simp only [cond_false, List.append_nil]
    omega
  · show (c.chunks (s.claimed ++ [s.cursor]).dropLast).countP throws < _
    rw [List.dropLast_concat]
    have := h.few hpc
    omega
  · show s.invoked.count x + count _ (Function.update s.pc t _) =
      (c.chunks (s.claimed ++ [s.cursor])).count x
    have hbody := count_update (inBody c x) s.pc t (.running s.cursor)
    have hone : (c.chunks [s.cursor]).count x = (inBody c x (.running s.cursor)).toNat := by
      show [(s.cursor, c.hi s.cursor)].count x = _
      by_cases hx : (s.cursor, c.hi s.cursor) = x <;> simp [inBody, hx]
    have := h.invoked x
    rw [hpc] at hbody
    rw [chunks_append, List.count_append, hone]
    simp only [inBody, Bool.toNat_false] at hbody ⊢
    omega

theorem Inv.leave (h : Inv throws s) (hpc : s.pc t = .claiming) (hend : c.end_ ≤ s.cursor) :
    Inv throws ({s with cursor := (s.cursor + c.step) % size, reads := s.reads + 1}.pcAt t
      .finished) := by
  have hstop : c.loops.stop () (c.loops.value () s.reads) = true := by
    rw [← h.cursor]
    exact decide_eq_true hend
  refine ⟨h.next, ?_, ?_, h.before, fun x => ?_⟩
  · show s.claimed = (c.loops.values () (s.reads + 1)).filter fun v => !c.loops.stop () v
    rw [Claims.Loops.values_succ, List.filter_append, ← h.claimed, List.filter_singleton, hstop]
    simp
  · show count _ (Function.update s.pc t _) =
      ((c.loops.values () (s.reads + 1)).filter (c.loops.stop ())).length + (c.chunks s.claimed).countP throws
    have hdoomed := count_update (Throws.doomed c throws) s.pc t .finished
    rw [h.doomed, hpc] at hdoomed
    rw [Claims.Loops.values_succ, List.filter_append, List.filter_singleton, hstop, cond_true,
      List.length_append]
    simp only [Throws.doomed, Bool.toNat_false, Bool.toNat_true] at hdoomed
    simp only [List.length_singleton]
    omega
  · have hsame : inBody c x .finished = inBody c x (s.pc t) := by
      rw [hpc]
      rfl
    have := h.invoked x
    rwa [← count_update_same hsame] at this

theorem Inv.body (h : Inv throws s) {lo : ℕ} (hpc : s.pc t = .running lo) :
    Inv throws ({s with invoked := s.invoked ++ [(lo, c.hi lo)]}.pcAt t
      (if throws (lo, c.hi lo) then .finished else .claiming)) := by
  refine ⟨h.cursor, h.claimed, ?_, h.before, fun x => ?_⟩
  · have hsame : Throws.doomed c throws (if throws (lo, c.hi lo) then .finished else .claiming) =
        Throws.doomed c throws (s.pc t) := by
      rw [hpc]
      cases hthrows : throws (lo, c.hi lo) <;> simp [Throws.doomed, hthrows]
    exact (count_update_same hsame).trans h.doomed
  · show (s.invoked ++ [(lo, c.hi lo)]).count x + count _ (Function.update s.pc t _) = _
    have hmove := count_update (inBody c x) s.pc t (if throws (lo, c.hi lo) then .finished else .claiming)
    have hout : inBody c x (if throws (lo, c.hi lo) then .finished else .claiming) = false := by
      cases throws (lo, c.hi lo) <;> rfl
    have hone : [(lo, c.hi lo)].count x = (inBody c x (.running lo)).toNat := by
      by_cases hx : (lo, c.hi lo) = x <;> simp [inBody, hx]
    have := h.invoked x
    rw [hpc, hout, Bool.toNat_false] at hmove
    rw [List.count_append, hone]
    show _ = (c.chunks s.claimed).count x
    omega

theorem inv (h : Reachable (system c throws) s) : Inv throws s := by
  induction h with
  | initial hi =>
    obtain rfl := hi
    refine ⟨rfl, rfl, ?_, fun hne => absurd rfl hne, fun x => ?_⟩
    · exact count_eq_zero.mpr fun _ => rfl
    · rw [count_eq_zero.mpr fun _ => rfl]
      rfl
  | step _ hstep ih =>
    cases hstep with
    | claim hpc hgo => exact ih.claim hpc hgo
    | leave hpc hend => exact ih.leave hpc hend
    | body hpc => exact ih.body hpc

/-! ### The call returns -/

/-- No sum wraps inside the range. -/
theorem add_step_lt (hdomain : c.end_ + (c.worker_count + 1) * c.grain < size) {v : ℕ} (h : v < c.end_) :
    v + c.step < size := by
  have hend := c.end_lt
  have hgrain : c.grain ≤ (c.worker_count + 1) * c.grain := Nat.le_mul_of_pos_left _ (by omega)
  have := c.step_eq
  omega

def Pc.weight : Pc → ℕ
  | .claiming => 1
  | .running _ => 2
  | .finished => 0

def alive : Pc → Bool
  | .finished => false
  | _ => true

/-- A task that stops may take the cursor back to the beginning, but there is one less. -/
def State.measure (s : State c) : ℕ :=
  (2 * c.end_ + 1) * count alive s.pc + 2 * (c.end_ - s.cursor) + ∑ t, (s.pc t).weight

theorem measure_pcAt (s : State c) (t : Fin c.task_count) (p : Pc) :
    (s.pcAt t p).measure + (2 * c.end_ + 1) * (alive (s.pc t)).toNat + (s.pc t).weight =
      s.measure + (2 * c.end_ + 1) * (alive p).toNat + p.weight := by
  have halive := congrArg ((2 * c.end_ + 1) * ·) (count_update alive s.pc t p)
  have hweight := sum_update Pc.weight s.pc t p
  simp only [Nat.mul_add] at halive
  simp only [State.measure, State.pcAt]
  omega

theorem exists_step (hdomain : c.end_ + (c.worker_count + 1) * c.grain < size) (throws : Chunk → Bool)
    (ht : s.pc t ≠ .finished) : ∃ s', Step c throws t s s' ∧ s'.measure < s.measure := by
  cases hpc : s.pc t with
  | finished => exact absurd hpc ht
  | claiming =>
    by_cases hgo : s.cursor < c.end_
    · refine ⟨_, .claim hpc hgo, ?_⟩
      have hsum := add_step_lt hdomain hgo
      have hstep := c.step_pos
      have hmove := measure_pcAt {s with
        cursor := (s.cursor + c.step) % size
        reads := s.reads + 1
        claimed := s.claimed ++ [s.cursor]} t (.running s.cursor)
      simp only [hpc, alive, Pc.weight] at hmove
      simp only [State.measure, Nat.mod_eq_of_lt hsum] at hmove ⊢
      omega
    · refine ⟨_, .leave hpc (Nat.le_of_not_lt hgo), ?_⟩
      have hmove := measure_pcAt {s with cursor := (s.cursor + c.step) % size, reads := s.reads + 1} t
        .finished
      simp only [hpc, alive, Pc.weight, Bool.toNat_true, Bool.toNat_false] at hmove
      simp only [State.measure] at hmove ⊢
      omega
  | running lo =>
    refine ⟨_, .body hpc, ?_⟩
    have hmove := measure_pcAt {s with invoked := s.invoked ++ [(lo, c.hi lo)]} t
      (if throws (lo, c.hi lo) then .finished else .claiming)
    cases hthrows : throws (lo, c.hi lo) <;>
      simp only [hpc, hthrows, alive, Pc.weight, Bool.toNat_true, Bool.toNat_false, if_true,
        Bool.false_eq_true, if_false] at hmove ⊢ <;>
      simp only [State.measure] at hmove ⊢ <;> omega

theorem returns (hdomain : c.end_ + (c.worker_count + 1) * c.grain < size)
    (h : Reachable (system c throws) s) :
    ∃ s', Reachable ((system c throws).startingAt s) s' ∧ s'.Finished := by
  apply h.exists_of_measure State.measure
  intro s _ hnot
  obtain ⟨t, ht⟩ := not_forall.mp hnot
  exact ⟨t, exists_step hdomain throws ht⟩

/-! ### The chunks claimed -/

theorem batches_fit (hrange : c.begin < c.end_)
    (hdomain : c.end_ + (c.worker_count + 1) * c.grain < size) : c.begin + c.batches * c.step < size := by
  obtain ⟨hpos, _, _⟩ := Call.batches_bounds hrange
  have hlast := add_step_lt hdomain (Call.begin_add_lt hrange (Nat.sub_one_lt_of_lt hpos))
  have hsplit : c.batches * c.step = (c.batches - 1) * c.step + c.step := by
    rw [← Nat.add_one_mul, Nat.sub_add_cancel hpos]
  omega

theorem tasks_eq (hrange : c.begin < c.end_)
    (hdomain : c.end_ + (c.worker_count + 1) * c.grain < size) :
    c.task_count = min c.batches c.worker_cap := by
  have := add_step_lt hdomain (show c.end_ - 1 < c.end_ by omega)
  have := Call.count_end hrange
  exact Call.task_count_eq hrange (by omega)

theorem split_eq (hrange : c.begin < c.end_) (hdomain : c.end_ + (c.worker_count + 1) * c.grain < size) :
    c.split = c.chunks (c.loops.values () c.batches) :=
  (Call.chunks_values (batches_fit hrange hdomain)).symm

/-- The chunks before the last. -/
theorem dropLast_split (hrange : c.begin < c.end_)
    (hdomain : c.end_ + (c.worker_count + 1) * c.grain < size) :
    c.split.dropLast = c.chunks (c.loops.values () (c.batches - 1)) := by
  obtain ⟨hpos, _, _⟩ := Call.batches_bounds hrange
  rw [split_eq hrange hdomain, Call.chunks, ← List.map_dropLast]
  obtain ⟨b, hb⟩ : ∃ b, c.batches = b + 1 := ⟨c.batches - 1, by omega⟩
  rw [hb, Claims.Loops.values_succ, List.dropLast_concat]
  rfl

/-- The reads before the end of the range do not stop a task. -/
theorem not_stop (hrange : c.begin < c.end_) {k : ℕ} (hk : k < c.batches) :
    c.loops.stop () (c.loops.value () k) = false := by
  have hlt := Call.begin_add_lt hrange hk
  rw [Call.value_eq, Nat.mod_eq_of_lt (hlt.trans c.end_lt)]
  exact decide_eq_false (Nat.not_le_of_lt hlt)

/-- When all tasks have ended, each has been stopped by a read or left by an exception. -/
theorem finished_count (h : Reachable (system c throws) s) (hfin : s.Finished) :
    ((c.loops.values () s.reads).filter (c.loops.stop ())).length + (c.chunks s.claimed).countP throws =
      c.task_count := by
  have hall : count (doomed c throws) s.pc = Fintype.card (Fin c.task_count) :=
    count_eq_card fun t => by
      rw [hfin t]
      rfl
  rw [← (inv h).doomed, hall, Fintype.card_fin]

theorem invoked_claimed (h : Reachable (system c throws) s) (hfin : s.Finished) :
    s.invoked.Perm (c.chunks s.claimed) := by
  rw [List.perm_iff_count]
  intro x
  have hnone : count (inBody c x) s.pc = 0 := count_eq_zero.mpr fun t => by
    rw [hfin t]
    rfl
  have := (inv h).invoked x
  omega

/-- No body is lost if not all tasks are doomed before the last chunk, and no read behind the
range wraps. -/
theorem complete (hrange : c.begin < c.end_) (hdomain : c.end_ + (c.worker_count + 1) * c.grain < size)
    (hfew : c.split.dropLast.countP throws < c.task_count)
    (hfit : c.begin + (c.batches + (c.task_count - c.split.countP throws) - 1) * c.step < size) :
    c.Complete throws := by
  intro s h hfin
  have hstop : ∀ k < c.batches + (c.task_count - c.split.countP throws),
      c.loops.stop () (c.loops.value () k) = true ↔ c.batches ≤ k := by
    intro k hk
    have hle := Nat.mul_le_mul_right c.step (Nat.le_sub_one_of_lt hk)
    constructor
    · intro hend
      by_contra hlt
      rw [not_stop hrange (Nat.lt_of_not_le hlt)] at hend
      cases hend
    · intro hbehind
      rw [Call.value_eq, Nat.mod_eq_of_lt (by omega)]
      exact decide_eq_true (Call.end_le_add hrange hbehind)
  have hreads : s.reads ≤ c.batches + (c.task_count - c.split.countP throws) := by
    clear hfin
    induction h with
    | initial hi =>
      obtain rfl := hi
      exact Nat.zero_le _
    | @step t s s' hr hstep ih =>
      have hread : s.pc t = .claiming →
          s.reads + 1 ≤ c.batches + (c.task_count - c.split.countP throws) := by
        intro hpc
        have hlt := (inv hr).few hpc
        obtain ⟨hgo, hleft⟩ := Claims.values_filter (R := s.reads) fun k hk => hstop k (by omega)
        rw [(inv hr).claimed, hgo, hleft] at hlt
        by_cases hbehind : c.batches ≤ s.reads
        · rw [min_eq_right hbehind, ← split_eq hrange hdomain] at hlt
          omega
        · omega
      cases hstep with
      | claim hpc => exact hread hpc
      | leave hpc => exact hread hpc
      | body => exact ih
  obtain ⟨hgo, hleft⟩ := Claims.values_filter (R := s.reads) fun k hk => hstop k (by omega)
  have hcount := finished_count h hfin
  have hall : c.batches ≤ s.reads := by
    by_contra hlt
    have hsub : (c.chunks (c.loops.values () s.reads)).Sublist c.split.dropLast := by
      rw [dropLast_split hrange hdomain]
      exact (((List.range_sublist.mpr (by omega)).map _).map _)
    have := hsub.countP_le (p := throws)
    rw [(inv h).claimed, hgo, hleft, min_eq_left (by omega)] at hcount
    omega
  have hperm := invoked_claimed h hfin
  rwa [(inv h).claimed, hgo, min_eq_right hall, ← split_eq hrange hdomain] at hperm

/-- If the chunks claimed are those of the range, the reads behind it all stopped a task. -/
theorem stopped (hrange : c.begin < c.end_) (h : Reachable (system c throws) s) (hperm : (c.chunks s.claimed).Perm c.split) :
    c.batches ≤ s.reads ∧
      ∀ k < s.reads, c.loops.stop () (c.loops.value () k) = true ↔ c.batches ≤ k := by
  have hlength : s.claimed.length = c.batches := by
    have := hperm.length_eq
    simpa [Call.chunks, Call.split] using this
  have hclaimed := (inv h).claimed
  have hreads : c.batches ≤ s.reads := by
    have := List.length_filter_le (fun v => !c.loops.stop () v) (c.loops.values () s.reads)
    rw [← hclaimed, hlength] at this
    simpa [Claims.Loops.values] using this
  have hbefore : (c.loops.values () c.batches).filter (fun v => !c.loops.stop () v) =
      c.loops.values () c.batches := by
    refine List.filter_eq_self.mpr fun v hv => ?_
    obtain ⟨k, hk, rfl⟩ := List.mem_map.mp hv
    rw [not_stop hrange (List.mem_range.mp hk)]
    rfl
  have hsplit : c.loops.values () s.reads =
      c.loops.values () c.batches ++ (c.loops.values () s.reads).drop c.batches := by
    have htake : (c.loops.values () s.reads).take c.batches = c.loops.values () c.batches := by
      rw [Claims.Loops.values, Claims.Loops.values, ← List.map_take, List.take_range,
        min_eq_left hreads]
    conv_lhs => rw [← List.take_append_drop c.batches (c.loops.values () s.reads)]
    rw [htake]
  have hnone : ((c.loops.values () s.reads).drop c.batches).filter (fun v => !c.loops.stop () v) = [] := by
    rw [hsplit, List.filter_append, hbefore] at hclaimed
    have := congrArg List.length hclaimed
    rw [List.length_append, hlength] at this
    have hlen : (c.loops.values () c.batches).length = c.batches := by simp [Claims.Loops.values]
    exact List.eq_nil_of_length_eq_zero (by omega)
  refine ⟨hreads, fun k hk => ⟨fun hend => ?_, fun hbehind => ?_⟩⟩
  · by_contra hlt
    rw [not_stop hrange (Nat.lt_of_not_le hlt)] at hend
    cases hend
  · have hmem : c.loops.value () k ∈ (c.loops.values () s.reads).drop c.batches := by
      refine List.mem_iff_getElem.mpr ⟨k - c.batches, ?_, ?_⟩
      · simp [Claims.Loops.values]
        omega
      · simp [Claims.Loops.values, Nat.add_sub_cancel' hbehind]
    have := List.filter_eq_nil_iff.mp hnone _ hmem
    simpa using this

/-- If no body is lost, the tasks that are left read the cursor once each behind the range. -/
theorem complete_fits (hrange : c.begin < c.end_)
    (hdomain : c.end_ + (c.worker_count + 1) * c.grain < size) (hcomplete : c.Complete throws) :
    c.split.dropLast.countP throws < c.task_count ∧
      c.begin + (c.batches + (c.task_count - c.split.countP throws) - 1) * c.step < size := by
  have hinit : Reachable (system c throws) ⟨c.begin, fun _ => .claiming, [], 0, []⟩ := .initial rfl
  obtain ⟨s, hs, hfin⟩ := returns hdomain hinit
  have h : Reachable (system c throws) s := hinit.trans hs
  obtain ⟨hreads, hstop⟩ :=
    stopped hrange h ((invoked_claimed h hfin).symm.trans (hcomplete s h hfin))
  obtain ⟨hgo, hleft⟩ := Claims.values_filter hstop
  obtain ⟨hpos, _, _⟩ := Call.batches_bounds hrange
  have hclaimed := (inv h).claimed
  rw [hgo, min_eq_right hreads] at hclaimed
  have hcount := finished_count h hfin
  rw [hleft, hclaimed, ← split_eq hrange hdomain] at hcount
  constructor
  · have hne : s.claimed ≠ [] := by
      rw [hclaimed]
      exact List.ne_nil_of_length_pos (by simpa [Claims.Loops.values] using hpos)
    have hbefore := (inv h).before hne
    rwa [hclaimed, Call.chunks, List.map_dropLast, ← Call.chunks, ← split_eq hrange hdomain] at hbefore
  · have hlast : c.batches + (c.task_count - c.split.countP throws) - 1 = s.reads - 1 := by omega
    rw [hlast]
    by_contra hwrap
    have hinside := Call.begin_add_lt hrange (Nat.sub_one_lt_of_lt hpos)
    have hend := c.end_lt
    have hbehind : c.batches < s.reads := by
      by_contra hle
      rw [show s.reads - 1 = c.batches - 1 by omega] at hwrap
      omega
    have hstep := c.step_eq
    by_cases hgrain : c.grain = 0
    · -- The cursor goes up in ones, and was read at zero.
      have hone : c.step = 1 := by omega
      rw [hone, Nat.mul_one] at hwrap hinside
      have hbegin := c.begin_lt
      have hzero : c.loops.value () (size - c.begin) = 0 := by
        rw [Call.value_eq, hone, Nat.mul_one, Nat.add_sub_cancel' hbegin.le, Nat.mod_self]
      have hwrapped := (hstop (size - c.begin) (by omega)).mpr (by omega)
      rw [hzero] at hwrapped
      have := stop_iff.mp hwrapped
      omega
    · have htasks := tasks_eq hrange hdomain
      have hcap : c.worker_cap ≤ c.worker_count + 1 := by
        unfold Call.worker_cap
        split <;> omega
      have hle : (s.reads - 1) * c.step ≤ (c.batches - 1 + (c.worker_count + 1)) * c.step :=
        Nat.mul_le_mul_right _ (by omega)
      rw [Nat.add_mul, show c.step = c.grain by omega] at hle
      rw [show c.step = c.grain by omega] at hwrap hinside
      omega

end Throws

/-- A call with nothing to do submits no task. -/
theorem Call.complete_empty {c : Call} {throws : Chunk → Bool} (hempty : ¬c.begin < c.end_) :
    c.Complete throws := by
  intro s h _
  have htasks : c.task_count = 0 := if_pos (by omega)
  have hsplit : c.split = [] := by
    have hstep := c.step_pos
    have hbatches : c.batches = 0 := by
      refine Nat.div_eq_of_lt ?_
      unfold Call.count
      omega
    rw [Call.split, hbatches]
    rfl
  rw [hsplit]
  cases h with
  | initial hi =>
    obtain rfl := hi
    exact .nil
  | @step t => exact absurd t.isLt (by omega)

/-- **No chunk is lost to an exception exactly when** the body throws on fewer of the chunks before
the last than there are tasks, and the tasks left by none read the cursor behind the range
without a sum that wraps (it can only where `grain` is zero, and counts as one). -/
theorem no_chunk_lost (c : Call) (throws : Chunk → Bool)
    (hdomain : c.end_ + (c.worker_count + 1) * c.grain < size) :
    c.Complete throws ↔ (c.begin < c.end_ →
      c.split.dropLast.countP throws < c.task_count ∧
        c.begin + (c.batches + (c.task_count - c.split.countP throws) - 1) * c.step < size) := by
  by_cases hrange : c.begin < c.end_
  · constructor
    · exact fun hcomplete _ => Throws.complete_fits hrange hdomain hcomplete
    · intro hfits
      exact Throws.complete hrange hdomain (hfits hrange).1 (hfits hrange).2
  · exact ⟨fun _ h => absurd h hrange, fun _ => Call.complete_empty hrange⟩

theorem size_pos : 0 < size := by decide

theorem two_lt_size : 2 < size := by decide

theorem three_lt_size : 3 < size := by decide

/-- Two chunks for one worker. -/
def twoChunks : Call := ⟨0, 2, 1, 1, size_pos, two_lt_size, by decide⟩

/-- Three chunks for two workers: the body throws on the first, and the other worker goes on. -/
theorem no_chunk_lost_thrown :
    Call.Complete ⟨0, 3, 1, 2, size_pos, three_lt_size, by decide⟩ fun x => x = (0, 1) := by
  refine (no_chunk_lost _ _ (by decide)).mpr fun _ => ?_
  decide

/-- With one worker and a body that throws on the first of two, the second is lost. -/
theorem second_chunk_lost :
    twoChunks.end_ + (twoChunks.worker_count + 1) * twoChunks.grain < size ∧
      ¬twoChunks.Complete fun x => x = (0, 1) := by
  refine ⟨by decide, fun hcomplete => ?_⟩
  have hfits := Throws.complete_fits (by decide) (by decide) hcomplete
  revert hfits
  decide

end Thunderbolt.Runtime.ParallelFor
