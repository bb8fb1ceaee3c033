import Mathlib.Tactic.Ring
import Thunderbolt.Runtime.ParallelFor

/-! `parallel_for` covers its range exactly where no sum wraps.

The `k`-th read of the cursor sees `begin + k * step`, modulo `2 ^ 64` (`value_eq`);
so the chunks, in the order of their claims, are those of the reads that fall below
the end (`chunks_eq`). Without wrapping these are the first `batches`, and the reads
of the tasks that stop fall behind them (`fits_correct`). With wrapping no task is
submitted, or a chunk comes out empty, or one comes out twice (`correct_fits`). -/
namespace Thunderbolt.Runtime.ParallelFor
open Concurrent

namespace Call
variable {c : Call} {s : c.State}

theorem step_pos (c : Call) : 0 < c.step := by
  unfold step
  split <;> omega

theorem step_lt (c : Call) : c.step < size := by
  have := c.grain_lt
  unfold step size at *
  split <;> omega

theorem step_eq (c : Call) : c.step = max c.grain 1 := by
  unfold step
  split <;> omega

theorem value_eq (c : Call) (k : ℕ) : c.loops.value () k = (c.begin + k * c.step) % size := by
  induction k with
  | zero => simpa [Claims.Loops.value, loops] using (Nat.mod_eq_of_lt c.begin_lt).symm
  | succ k ih =>
    rw [Claims.Loops.value, Function.iterate_succ_apply']
    show (c.loops.value () k + c.step) % size = _
    rw [ih, Nat.mod_add_mod, Nat.succ_mul, Nat.add_assoc]

/-- The last chunk begins inside the range, and ends behind it. -/
theorem batches_bounds (h : c.begin < c.end_) :
    0 < c.batches ∧ (c.batches - 1) * c.step < c.count ∧ c.count ≤ c.batches * c.step := by
  have hstep := c.step_pos
  have hdiv := Nat.div_add_mod (c.count + c.step - 1) c.step
  have hmod := Nat.mod_lt (c.count + c.step - 1) hstep
  have hcount : 0 < c.count := by
    unfold count
    omega
  have hb : c.step * c.batches + (c.count + c.step - 1) % c.step = c.count + c.step - 1 := hdiv
  rw [Nat.mul_comm] at hb
  have hpos : 0 < c.batches := by
    by_contra hzero
    have hzero : c.batches = 0 := by omega
    rw [hzero] at hb
    omega
  rw [Nat.sub_mul]
  omega

theorem count_end (h : c.begin < c.end_) : c.begin + c.count = c.end_ := by
  unfold count
  omega

/-- The reads before the last chunk do not wrap. -/
theorem begin_add_lt (h : c.begin < c.end_) {k : ℕ} (hk : k < c.batches) :
    c.begin + k * c.step < c.end_ := by
  obtain ⟨hpos, hlast, _⟩ := batches_bounds h
  have hle : k * c.step ≤ (c.batches - 1) * c.step := Nat.mul_le_mul_right _ (by omega)
  have := count_end h
  omega

theorem end_le_add (h : c.begin < c.end_) {k : ℕ} (hk : c.batches ≤ k) :
    c.end_ ≤ c.begin + k * c.step := by
  obtain ⟨_, _, hlast⟩ := batches_bounds h
  have hle : c.batches * c.step ≤ k * c.step := Nat.mul_le_mul_right _ hk
  have := count_end h
  omega

/-! ### What the body is invoked on -/

/-- The body is invoked on the chunks claimed, in some order. -/
theorem mem_perm (h : Reachable c.system s) : s.mem.Perm (s.log.flatMap Claims.Claim.done) := by
  induction h with
  | initial hi =>
    obtain rfl := hi
    exact .nil
  | @step t s s' hr hstep ih =>
    cases hstep with
    | claim =>
      refine ih.trans ?_
      show List.Perm _ ((s.log ++ [_]).flatMap Claims.Claim.done)
      simp
    | leave | done => exact ih
    | @act _ _ k o left hpc =>
      obtain ⟨x, hx, _⟩ := (Claims.bodies hr).running _ _ _ hpc
      have hk := (List.getElem?_eq_some_iff.mp hx).1
      exact (ih.append_right [o]).trans (Claims.flatMap_push hk o).symm

/-- The chunks of the values claimed. -/
def chunks (c : Call) (lows : List ℕ) : List Chunk := lows.map fun lo => (lo, c.hi lo)

theorem invoked_perm (h : Reachable c.system s) (hfin : s.Finished) :
    s.mem.Perm (c.chunks (s.claims ())) := by
  refine (mem_perm h).trans ?_
  rw [(Claims.bodies h).done_finished hfin]
  have hclaims : ∀ l : List (Claims.Claim Unit ℕ Chunk),
      (l.flatMap fun x => c.loops.ops x.loop x.value) =
        c.chunks (l.filterMap fun x => if x.loop = () then some x.value else none) := by
    intro l
    induction l with
    | nil => rfl
    | cons x l ih =>
      rw [List.flatMap_cons, ih]
      simp [chunks, loops]
  rw [hclaims]
  rfl

theorem Covers.perm {a b : List Chunk} (hperm : a.Perm b) (h : c.Covers a) : c.Covers b where
  nonempty x hx := h.nonempty x (hperm.mem_iff.mpr hx)
  length x hx := h.length x (hperm.mem_iff.mpr hx)
  inside x hx := h.inside x (hperm.mem_iff.mpr hx)
  disjoint := (hperm.pairwise_iff (fun hxy => hxy.symm)).mp h.disjoint
  union i hi hlt := by
    obtain ⟨x, hx, hin⟩ := h.union i hi hlt
    exact ⟨x, hperm.mem_iff.mp hx, hin⟩

/-! ### Nothing wraps -/

/-- Where the chunk of the `k`-th read ends, if the sum does not wrap. -/
theorem hi_eq {k : ℕ} (hk : c.begin + (k + 1) * c.step < size) :
    c.hi (c.begin + k * c.step) = min (c.begin + (k + 1) * c.step) c.end_ := by
  have hsum : (c.begin + k * c.step + c.step) % size = c.begin + (k + 1) * c.step := by
    rw [Nat.add_assoc, ← Nat.succ_mul]
    exact Nat.mod_eq_of_lt hk
  unfold hi
  rw [hsum]
  split <;> omega

/-- The first `batches` chunks, in order. -/
theorem chunks_values (hfit : c.begin + c.batches * c.step < size) :
    c.chunks (c.loops.values () c.batches) = (List.range c.batches).map fun k =>
      (c.begin + k * c.step, min (c.begin + (k + 1) * c.step) c.end_) := by
  have hnowrap : ∀ k ≤ c.batches, c.begin + k * c.step < size := by
    intro k hk
    have := Nat.mul_le_mul_right c.step hk
    omega
  unfold chunks Claims.Loops.values
  rw [List.map_map]
  apply List.map_congr_left
  intro k hk
  have hk := List.mem_range.mp hk
  simp only [Function.comp, value_eq, Nat.mod_eq_of_lt (hnowrap k (by omega)), hi_eq (hnowrap (k + 1) hk)]

/-- They make up the range. -/
theorem covers_batches (h : c.begin < c.end_) (hfit : c.begin + c.batches * c.step < size) :
    c.Covers (c.chunks (c.loops.values () c.batches)) := by
  have hstep := c.step_pos
  rw [chunks_values hfit]
  refine ⟨?_, ?_, ?_, ?_, ?_⟩
  · intro x hx
    obtain ⟨k, hk, rfl⟩ := List.mem_map.mp hx
    have := begin_add_lt h (List.mem_range.mp hk)
    have := Nat.add_one_mul k c.step
    show c.begin + k * c.step < min _ _
    omega
  · intro x hx
    obtain ⟨k, hk, rfl⟩ := List.mem_map.mp hx
    have := Nat.add_one_mul k c.step
    have := c.step_eq
    show min _ _ - (c.begin + k * c.step) ≤ _
    omega
  · intro x hx
    obtain ⟨k, hk, rfl⟩ := List.mem_map.mp hx
    show c.begin ≤ c.begin + k * c.step ∧ min _ _ ≤ c.end_
    omega
  · rw [List.pairwise_map]
    refine List.pairwise_lt_range.imp ?_
    intro j k hjk
    have := Nat.mul_le_mul_right c.step (show j + 1 ≤ k from hjk)
    show min _ _ ≤ c.begin + k * c.step ∨ _
    omega
  · intro i hi hlt
    have hdiv := Nat.div_add_mod (i - c.begin) c.step
    have hmod := Nat.mod_lt (i - c.begin) hstep
    rw [Nat.mul_comm] at hdiv
    have hk : (i - c.begin) / c.step < c.batches := by
      by_contra hge
      have := end_le_add h (Nat.le_of_not_lt hge)
      omega
    refine ⟨_, List.mem_map.mpr ⟨_, List.mem_range.mpr hk, rfl⟩, ?_⟩
    have := Nat.add_one_mul ((i - c.begin) / c.step) c.step
    show _ ≤ i ∧ i < min _ _
    omega

/-- As many tasks as there are chunks, or workers. -/
theorem task_count_eq (h : c.begin < c.end_) (hcount : c.count + c.step - 1 < size) :
    c.task_count = min c.batches c.worker_cap := by
  have hbatch : c.batch_count = c.batches := by
    unfold batch_count batches
    rw [Nat.mod_eq_of_lt hcount]
  unfold task_count
  rw [if_neg (by omega), hbatch]
  split <;> omega

theorem threads_eq (c : Call) :
    Claims.threads (fun _ : Fin c.task_count => ()) () = c.task_count := by
  simp [Claims.threads]

theorem worker_cap_pos (c : Call) : 0 < c.worker_cap := by
  unfold worker_cap
  split <;> omega

/-- No task, no step. -/
theorem unstarted (htasks : c.task_count = 0) (h : Reachable c.system s) : s.mem = [] := by
  induction h with
  | initial hi =>
    obtain rfl := hi
    rfl
  | @step t _ _ _ _ _ => exact absurd t.isLt (by omega)

theorem fits_correct (hfits : c.Fits) : c.Correct := by
  by_cases h : c.begin < c.end_
  · obtain ⟨hcount, hcursor⟩ := hfits h
    have htasks := task_count_eq h hcount
    obtain ⟨hpos, _, _⟩ := batches_bounds h
    have hcap := c.worker_cap_pos
    have hnowrap : ∀ k ≤ c.batches + c.task_count - 1, c.begin + k * c.step < size := by
      intro k hk
      rw [htasks] at hk
      have := Nat.mul_le_mul_right c.step hk
      omega
    have hstops : c.loops.StopsAfter (fun _ : Fin c.task_count => ()) fun _ => c.batches := by
      intro _ k hk
      rw [threads_eq] at hk
      have hk' : k ≤ c.batches + c.task_count - 1 := Nat.le_sub_one_of_lt hk
      rw [value_eq, Nat.mod_eq_of_lt (hnowrap k hk')]
      show decide (_ ≥ c.end_) = true ↔ _
      rw [decide_eq_true_iff]
      constructor
      · intro hge
        by_contra hlt
        have := begin_add_lt h (Nat.lt_of_not_le hlt)
        omega
      · exact end_le_add h
    refine ⟨fun s hs => Claims.finishes (B := 1) hstops (fun _ _ => le_rfl) hs, fun s hs hfin => ?_⟩
    have hclaims := Claims.claims_finished hstops (fun _ _ => by rw [threads_eq]; omega) hs hfin ()
    refine Covers.perm (invoked_perm hs hfin).symm ?_
    rw [hclaims]
    exact covers_batches h (hnowrap _ (by omega))
  · have htasks : c.task_count = 0 := if_pos (by omega)
    have hdone : ∀ s : c.State, s.Finished := fun s t => absurd t.isLt (by omega)
    refine ⟨fun s _ => ⟨s, .initial rfl, hdone s⟩, fun s hs _ => ?_⟩
    rw [unstarted htasks hs]
    exact ⟨nofun, nofun, nofun, .nil, fun i hi hlt => absurd (hi.trans_lt hlt) h⟩

/-! ### Something wraps -/

/-- The number of chunks wraps: no task is submitted. -/
theorem count_fits (h : c.begin < c.end_) (hcorrect : c.Correct) : c.count + c.step - 1 < size := by
  by_contra hwrap
  have hstep := c.step_lt
  have hend := c.end_lt
  have hcount := count_end h
  have hbatch : c.batch_count = 0 := by
    have hmod : (c.count + c.step - 1) % size = c.count + c.step - 1 - size := by
      rw [Nat.mod_eq_sub_mod (by omega), Nat.mod_eq_of_lt (by omega)]
    unfold batch_count
    rw [hmod]
    exact Nat.div_eq_of_lt (by omega)
  have htasks : c.task_count = 0 := by
    have hcap := c.worker_cap_pos
    unfold task_count
    rw [if_neg (by omega), hbatch, if_pos hcap]
  have hinit : Reachable c.system (Claims.initial c.loops []) := .initial rfl
  have hcovers := hcorrect.covers _ hinit fun t => absurd t.isLt (by omega)
  obtain ⟨x, hx, _⟩ := hcovers.union c.begin le_rfl h
  cases hx

/-- The value of the `k`-th read is claimed if it lies in the range. -/
theorem mem_claims (h : Reachable c.system s) {k : ℕ} (hk : k < s.reads ())
    (hgo : c.loops.value () k < c.end_) : c.loops.value () k ∈ s.claims () := by
  rw [(Claims.reads h).claimed]
  refine List.mem_filter.mpr ⟨List.mem_map.mpr ⟨k, List.mem_range.mpr hk, rfl⟩, ?_⟩
  simpa [loops] using hgo

/-- The chunks of two reads do not overlap. -/
theorem apart (h : Reachable c.system s) (hcovers : c.Covers (c.chunks (s.claims ()))) {j k : ℕ}
    (hjk : j < k) (hk : k < s.reads ()) (hj : c.loops.value () j < c.end_)
    (hgo : c.loops.value () k < c.end_) :
    c.hi (c.loops.value () j) ≤ c.loops.value () k ∨ c.hi (c.loops.value () k) ≤ c.loops.value () j := by
  have hdisjoint := hcovers.disjoint
  rw [chunks, (Claims.reads h).claimed, List.pairwise_map, List.pairwise_filter, Claims.Loops.values,
    List.pairwise_map, List.pairwise_iff_getElem] at hdisjoint
  have := hdisjoint j k (by simp; omega) (by simpa using hk) hjk
  simp only [List.getElem_range] at this
  exact this (by simpa [loops] using hj) (by simpa [loops] using hgo)

/-- When the call returns, the reads behind the first `batches` have all stopped a task. -/
theorem stopped (hrange : c.begin < c.end_) (hfit : c.begin + c.batches * c.step < size)
    (h : Reachable c.system s) (hcovers : c.Covers (c.chunks (s.claims ()))) {k : ℕ}
    (hk : k < s.reads ()) (hbehind : c.batches ≤ k) : c.end_ ≤ c.loops.value () k := by
  by_contra hgo
  have hgo : c.loops.value () k < c.end_ := Nat.lt_of_not_le hgo
  have hstep := c.step_pos
  have hclaim := mem_claims h hk hgo
  have hchunk : (c.loops.value () k, c.hi (c.loops.value () k)) ∈ c.chunks (s.claims ()) :=
    List.mem_map_of_mem hclaim
  have hnonempty := hcovers.nonempty _ hchunk
  have hinside := hcovers.inside _ hchunk
  simp only at hnonempty hinside
  -- The chunk of an earlier read that holds the same index.
  have hdiv := Nat.div_add_mod (c.loops.value () k - c.begin) c.step
  have hmod := Nat.mod_lt (c.loops.value () k - c.begin) hstep
  rw [Nat.mul_comm] at hdiv
  obtain ⟨j, hj⟩ : ∃ j, j = (c.loops.value () k - c.begin) / c.step := ⟨_, rfl⟩
  rw [← hj] at hdiv
  have hjlt : j < c.batches := by
    by_contra hge
    have := end_le_add hrange (Nat.le_of_not_lt hge)
    omega
  have hjend := begin_add_lt hrange hjlt
  have hend := c.end_lt
  have hle := Nat.mul_le_mul_right c.step (show j + 1 ≤ c.batches from hjlt)
  have hsucc := Nat.add_one_mul j c.step
  have hvalue : c.loops.value () j = c.begin + j * c.step := by
    rw [value_eq, Nat.mod_eq_of_lt (by omega)]
  have hapart := apart h hcovers (by omega) hk (hvalue ▸ hjend) hgo
  rw [hvalue, hi_eq (by omega)] at hapart
  omega

/-- The last chunk does not wrap. -/
theorem batches_fit (hrange : c.begin < c.end_) (h : Reachable c.system s)
    (hcovers : c.Covers (c.chunks (s.claims ()))) (hread : c.batches ≤ s.reads ()) :
    c.begin + c.batches * c.step < size := by
  by_contra hwrap
  obtain ⟨hpos, _, _⟩ := batches_bounds hrange
  have hlast := begin_add_lt hrange (Nat.sub_one_lt_of_lt hpos)
  have hend := c.end_lt
  have hstep := c.step_lt
  have hvalue : c.loops.value () (c.batches - 1) = c.begin + (c.batches - 1) * c.step := by
    rw [value_eq, Nat.mod_eq_of_lt (by omega)]
  have hclaim := mem_claims h (k := c.batches - 1) (by omega) (by omega)
  have hnonempty := hcovers.nonempty _ (List.mem_map_of_mem hclaim)
  have hsplit : c.batches * c.step = (c.batches - 1) * c.step + c.step := by
    rw [← Nat.add_one_mul, Nat.sub_add_cancel hpos]
  have hhi : c.hi (c.begin + (c.batches - 1) * c.step) =
      c.begin + (c.batches - 1) * c.step + c.step - size := by
    have hmod : (c.begin + (c.batches - 1) * c.step + c.step) % size =
        c.begin + (c.batches - 1) * c.step + c.step - size := by
      rw [Nat.mod_eq_sub_mod (by omega), Nat.mod_eq_of_lt (by omega)]
    unfold hi
    rw [hmod, if_pos (by omega)]
  simp only [hvalue, hhi] at hnonempty
  omega

theorem correct_fits (hcorrect : c.Correct) : c.Fits := by
  intro hrange
  have hcount := count_fits hrange hcorrect
  refine ⟨hcount, ?_⟩
  have htasks := task_count_eq hrange hcount
  have hcap := c.worker_cap_pos
  obtain ⟨hpos, hlast, _⟩ := batches_bounds hrange
  obtain ⟨s, hs, hfin⟩ := hcorrect.returns _ (.initial rfl)
  have hs : Reachable c.system s := .trans (.initial rfl) hs
  have hcovers := (hcorrect.covers s hs hfin).perm (invoked_perm hs hfin)
  have hleft : ((c.loops.values () (s.reads ())).filter (c.loops.stop ())).length = c.task_count := by
    rw [← (Claims.reads hs).left, Claims.left_finished hfin, threads_eq]
  have hbefore : ∀ k < c.batches, c.loops.value () k < c.end_ := by
    intro k hk
    have := begin_add_lt hrange hk
    rw [value_eq, Nat.mod_eq_of_lt (this.trans c.end_lt)]
    exact this
  have hstop : ∀ v, c.loops.stop () v = true ↔ c.end_ ≤ v := fun v => decide_eq_true_iff
  have hread : c.batches ≤ s.reads () := by
    by_contra hfew
    have hzero := (Claims.values_filter (L := c.loops) (c := ()) (m := c.batches) (R := s.reads ())
      fun k hk => by
        rw [hstop]
        have := hbefore k (by omega)
        omega).2
    omega
  have hfit := batches_fit hrange hs hcovers hread
  have hbehind : ∀ k < s.reads (), c.loops.stop () (c.loops.value () k) = true ↔ c.batches ≤ k := by
    intro k hk
    rw [hstop]
    constructor
    · intro hge
      by_contra hlt
      have := hbefore k (Nat.lt_of_not_le hlt)
      omega
    · exact stopped hrange hfit hs hcovers hk
  have hreads := (Claims.values_filter hbehind).2
  -- The first read that wraps would see less than one step, which is inside the range.
  by_contra hwrap
  have hexists : ∃ i, size ≤ c.begin + i * c.step := ⟨_, Nat.le_of_not_lt hwrap⟩
  obtain ⟨i, hi, hleast⟩ : ∃ i, size ≤ c.begin + i * c.step ∧
      ∀ j < i, c.begin + j * c.step < size :=
    ⟨Nat.find hexists, Nat.find_spec hexists, fun j hj => Nat.lt_of_not_le (Nat.find_min hexists hj)⟩
  have hi_gt : c.batches < i := by
    by_contra hle
    have := Nat.mul_le_mul_right c.step (Nat.le_of_not_lt hle)
    omega
  have hi_le : i ≤ c.batches + min c.batches c.worker_cap - 1 := by
    by_contra hgt
    exact hwrap (hleast _ (Nat.lt_of_not_le hgt))
  have hprev := hleast (i - 1) (by omega)
  have hsplit : i * c.step = (i - 1) * c.step + c.step := by
    rw [← Nat.add_one_mul, Nat.sub_add_cancel (by omega)]
  have hstep := c.step_lt
  have hvalue : c.loops.value () i = c.begin + i * c.step - size := by
    rw [value_eq, Nat.mod_eq_sub_mod hi, Nat.mod_eq_of_lt (by omega)]
  have hsmall : c.step ≤ (c.batches - 1) * c.step :=
    Nat.le_mul_of_pos_left _ (by omega)
  have hge := (hstop _).mp ((hbehind i (by omega)).mpr hi_gt.le)
  have := count_end hrange
  omega

/-- **`parallel_for` covers its range exactly where no sum wraps**: from the beginning of
every call the tasks can always come to an end, and the chunks the body was invoked on
make up the range, if and only if neither the number of chunks nor the cursor behind
the range reaches `2 ^ 64`. -/
theorem parallel_for (c : Call) : c.Correct ↔ c.Fits := ⟨correct_fits, fits_correct⟩

/-- Two items in one chunk as large as a `size_t` allows. -/
def oneChunk : Call := ⟨0, 2, size - 1, 4, by decide, by decide, by decide⟩

/-- No task is submitted. -/
theorem parallel_for_wraps : ¬oneChunk.Correct := by
  intro hcorrect
  exact absurd (count_fits (by decide) hcorrect) (by decide)

end Call

end Thunderbolt.Runtime.ParallelFor
