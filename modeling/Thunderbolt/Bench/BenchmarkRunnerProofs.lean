import Mathlib.Data.List.Perm.Basic
import Mathlib.Data.List.Range
import Thunderbolt.Bench.BenchmarkRunner

/-! The measurement schedule is balanced.

A round leaves the order a permutation of the legs and calls each leg in it once (`Slots`).
What is stored for a leg is the samples of its calls in the measured rounds (`Stored`), of
which each round has one. -/
namespace Thunderbolt.Bench.BenchmarkRunner
open Thunderbolt.Random

variable {machine : Machine} {options : RunOptions} {legs : List Leg} {s : Rounds} {n k : ℕ}

/-! ### Sorting by a key -/

/-- The entries, sorted by a key that they all have. -/
theorem flatMap_filter_perm {α β : Type*} [DecidableEq β] (f : α → β) {keys : List β} (hnodup : keys.Nodup)
    {l : List α} (hmem : ∀ x ∈ l, f x ∈ keys) : (keys.flatMap fun key => l.filter (f · = key)).Perm l := by
  induction keys generalizing l with
  | nil =>
    obtain rfl : l = [] := List.eq_nil_iff_forall_not_mem.mpr fun x hx => by cases hmem x hx
    exact .nil
  | cons key keys ih =>
    obtain ⟨hkey, hkeys⟩ := List.nodup_cons.mp hnodup
    have hrest : ∀ key' ∈ keys, l.filter (f · = key') = (l.filter (¬f · = key)).filter (f · = key') := by
      intro key' hkey'
      rw [List.filter_filter]
      apply List.filter_congr
      intro x _
      by_cases hx : f x = key'
      · have hne : key' ≠ key := fun heq => hkey (heq ▸ hkey')
        simp [hx, hne]
      · simp [hx]
    rw [List.flatMap_cons, List.flatMap_congr hrest]
    refine ((ih hkeys fun x hx => ?_).append_left _).trans ?_
    · obtain ⟨hxl, hne⟩ := List.mem_filter.mp hx
      exact (List.mem_cons.mp (hmem x hxl)).resolve_left (by simpa using hne)
    · simpa using List.filter_append_perm (f · = key) l

/-! ### One round -/

/-- The calls of one round. -/
structure Slots (n round : ℕ) (calls : List Call) : Prop where
  legs : (calls.map Call.leg).Perm (List.range n)
  slots : calls.map Call.slot = List.range n
  round : ∀ call ∈ calls, call.round = round

namespace Rounds

/-- What has been stored for each leg. -/
def Stored (options : RunOptions) (s : Rounds) : Prop :=
  ∀ i, s.samples i =
    (s.calls.filter fun call => call.leg = i ∧ ¬call.round < options.warmup).map (Call.sample options)

theorem stored_run_leg (h : Stored options s) (round slot i : ℕ) :
    Stored options (s.run_leg machine options round slot i) := by
  intro j
  have hj := h j
  simp only [run_leg, List.filter_append, List.map_append, ← hj]
  by_cases hwarmup : (round : ℤ) < options.warmup
  · simp [hwarmup]
  · have hmeasured : options.warmup ≤ round := Int.not_lt.mp hwarmup
    rw [if_neg hwarmup]
    by_cases hij : i = j
    · subst hij
      simp [hmeasured]
    · simp [hij, Function.update_of_ne (Ne.symm hij)]

theorem run_slots_stored (h : Stored options s) (round slot : ℕ) (order : List ℕ) :
    Stored options (s.run_slots machine options round slot order) := by
  induction order generalizing slot s with
  | nil => exact h
  | cons i order ih => exact ih (stored_run_leg h round slot i) (slot + 1)

theorem stored_run_round (h : Stored options s) (round : ℕ) :
    Stored options (s.run_round machine options round) := by
  rw [run_round]
  apply run_slots_stored
  exact h

/-- The inner loop calls the legs as they stand in the order. -/
theorem run_slots_calls (machine : Machine) (options : RunOptions) (s : Rounds) (round slot : ℕ) (order : List ℕ) :
    (s.run_slots machine options round slot order).order = s.order ∧
      ∃ calls, (s.run_slots machine options round slot order).calls = s.calls ++ calls ∧
        calls.map Call.leg = order ∧ calls.map Call.slot = List.range' slot order.length ∧
        ∀ call ∈ calls, call.round = round := by
  induction order generalizing slot s with
  | nil => exact ⟨rfl, [], by simp [run_slots], rfl, rfl, nofun⟩
  | cons i order ih =>
    obtain ⟨horder, calls, hcalls, hlegs, hslots, hround⟩ :=
      ih (s.run_leg machine options round slot i) (slot + 1)
    refine ⟨horder, ⟨round, i, slot, machine.observe s.calls.length⟩ :: calls, ?_, ?_, ?_, ?_⟩
    · rw [run_slots, hcalls]
      simp [run_leg]
    · rw [List.map_cons, hlegs]
    · rw [List.map_cons, hslots, List.length_cons, List.range'_succ]
    · exact List.forall_mem_cons.mpr ⟨rfl, hround⟩

/-- A round calls every leg once. -/
theorem run_round_calls (machine : Machine) (options : RunOptions) (horder : s.order.Perm (List.range n)) (round : ℕ) :
    (s.run_round machine options round).order.Perm (List.range n) ∧
      ∃ calls, (s.run_round machine options round).calls = s.calls ++ calls ∧ Slots n round calls := by
  set shuffled := if options.leg_order = .Shuffle then shuffle machine.rng s.order.length s.order s.drawn
    else (s.order, s.drawn) with hshuffled
  have hperm : shuffled.1.Perm (List.range n) := by
    rw [hshuffled]
    split
    case isTrue => exact (shuffle_perm _ _ _ _).trans horder
    case isFalse => exact horder
  obtain ⟨heq, calls, hcalls, hlegs, hslots, hround⟩ :=
    run_slots_calls machine options
      {s with order := shuffled.1, drawn := shuffled.2} round 0 shuffled.1
  have hlength : shuffled.1.length = n := by simpa using hperm.length_eq
  refine ⟨?_, calls, hcalls, ⟨hlegs ▸ hperm, ?_, hround⟩⟩
  · rw [run_round, heq]
    exact hperm
  · rw [hslots, hlength, List.range_eq_range']

/-! ### All rounds -/

/-- What the loops have done after `k` rounds. -/
structure Done (options : RunOptions) (n k : ℕ) (s : Rounds) : Prop where
  order : s.order.Perm (List.range n)
  stored : Stored options s
  calls : ∃ calls : ℕ → List Call, (∀ round < k, Slots n round (calls round)) ∧
    s.calls = (List.range k).flatMap calls

theorem done_initial : Done options legs.length 0 (initial options legs) where
  order := by
    rw [initial]
    split
    case isTrue => exact List.reverse_perm _
    case isFalse => exact .refl _
  stored _ := rfl
  calls := ⟨fun _ => [], nofun, rfl⟩

theorem Done.round (h : Done options n k s) : Done options n (k + 1) (s.run_round machine options k) := by
  obtain ⟨horder, new, hnew, hslots⟩ := run_round_calls machine options h.order k
  obtain ⟨calls, hcalls, heq⟩ := h.calls
  refine ⟨horder, stored_run_round h.stored k, Function.update calls k new, fun round hround => ?_, ?_⟩
  · obtain hlt | rfl := Nat.lt_succ_iff_lt_or_eq.mp hround
    · rw [Function.update_of_ne hlt.ne]
      exact hcalls round hlt
    · rw [Function.update_self]
      exact hslots
  · rw [hnew, heq, List.range_succ, List.flatMap_append, List.flatMap_singleton, Function.update_self]
    congr 1
    apply List.flatMap_congr
    intro round hround
    rw [Function.update_of_ne (List.mem_range.mp hround).ne]

theorem done_run (machine : Machine) (options : RunOptions) (legs : List Leg) (k : ℕ) :
    Done options legs.length k (run machine options legs k) := by
  induction k with
  | zero => exact done_initial
  | succ k ih =>
    rw [run, List.range_succ, List.foldl_append]
    exact ih.round

end Rounds

/-! ### Each leg's calls -/

/-- The leg `i` is in one slot of a round. -/
theorem Slots.leg {round i : ℕ} {calls : List Call} (h : Slots n round calls) (hi : i < n) :
    ∃ call, calls.filter (·.leg = i) = [call] ∧ call.round = round := by
  have hone : (calls.filter (·.leg = i)).length = 1 := by
    have hcount : (calls.map Call.leg).count i = 1 := by
      rw [h.legs.count_eq]
      exact List.count_eq_one_of_mem List.nodup_range (List.mem_range.mpr hi)
    rw [List.count, List.countP_map, List.countP_eq_length_filter] at hcount
    rw [← hcount]
    rfl
  obtain ⟨call, hcall⟩ := List.length_eq_one_iff.mp hone
  have hmem : call ∈ calls.filter (·.leg = i) := hcall ▸ List.mem_singleton_self call
  exact ⟨call, hcall, h.round call (List.mem_filter.mp hmem).1⟩

/-- Which call is the leg `i`'s in a round. -/
structure Table (n k : ℕ) (calls : List Call) (call : ℕ → ℕ → Call) : Prop where
  leg : ∀ i < n, calls.filter (·.leg = i) = (List.range k).map (call i)
  round : ∀ i < n, ∀ round < k, (call i round).round = round
  slots : ∀ round < k, ((List.range n).map fun i => (call i round).slot).Perm (List.range n)
  once : ∀ round < k, ((calls.filter (·.round = round)).map Call.leg).Perm (List.range n)

/-- The calls of one round among those of all. -/
theorem filter_round {calls : ℕ → List Call} (h : ∀ round < k, Slots n round (calls round)) {round : ℕ}
    (hround : round < k) : ((List.range k).flatMap calls).filter (·.round = round) = calls round := by
  have hsame : ∀ r ∈ List.range k, (calls r).filter (·.round = round) = if r = round then calls r else [] := by
    intro r hr
    have hall := (h r (List.mem_range.mp hr)).round
    split
    case isTrue heq => exact List.filter_eq_self.mpr fun call hcall => by simp [hall call hcall, heq]
    case isFalse hne => exact List.filter_eq_nil_iff.mpr fun call hcall => by simp [hall call hcall, hne]
  rw [List.filter_flatMap, List.flatMap_congr hsame]
  clear hsame h
  induction k with
  | zero => cases hround
  | succ k ih =>
    rw [List.range_succ, List.flatMap_append, List.flatMap_singleton]
    obtain hlt | rfl := Nat.lt_succ_iff_lt_or_eq.mp hround
    · rw [ih hlt, if_neg hlt.ne', List.append_nil]
    · have hnone : ((List.range round).flatMap fun r => if r = round then calls r else []) = [] := by
        rw [List.flatMap_eq_nil_iff]
        exact fun r hr => if_neg (List.mem_range.mp hr).ne
      rw [hnone, if_pos rfl, List.nil_append]

theorem Rounds.Done.table (h : Done options n k s) : ∃ call, Table n k s.calls call := by
  obtain ⟨calls, hslots, heq⟩ := h.calls
  have hleg : ∀ i round, ∃ call, i < n → round < k →
      (calls round).filter (·.leg = i) = [call] ∧ call.round = round := by
    intro i round
    by_cases hin : i < n ∧ round < k
    · obtain ⟨call, hcall⟩ := (hslots round hin.2).leg hin.1
      exact ⟨call, fun _ _ => hcall⟩
    · exact ⟨⟨0, 0, 0, ⟨0, 0, 0⟩⟩, fun hi hround => absurd ⟨hi, hround⟩ hin⟩
  choose call hcall using hleg
  refine ⟨call, fun i hi => ?_, fun i hi round hround => (hcall i round hi hround).2, fun round hround => ?_,
    fun round hround => ?_⟩
  · rw [heq, List.filter_flatMap, List.map_eq_flatMap]
    exact List.flatMap_congr fun round hround => (hcall i round hi (List.mem_range.mp hround)).1
  · have hperm := flatMap_filter_perm Call.leg (List.nodup_range (n := n)) (l := calls round) fun x hx =>
      (hslots round hround).legs.mem_iff.mp (List.mem_map_of_mem hx)
    rw [List.flatMap_congr fun i hi => (hcall i round (List.mem_range.mp hi) hround).1,
      ← List.map_eq_flatMap] at hperm
    have hmap := hperm.map Call.slot
    rwa [(hslots round hround).slots, List.map_map] at hmap
  · rw [heq, filter_round hslots hround]
    exact (hslots round hround).legs

/-- What is stored for a leg: its calls in the measured rounds, in order. -/
theorem Rounds.Done.samples_eq {w m : ℕ} (h : Done options n (w + m) s) (hwarmup : options.warmup = w)
    {call : ℕ → ℕ → Call} (htable : Table n (w + m) s.calls call) {i : ℕ} (hi : i < n) :
    s.samples i = (List.range m).map fun j => (call i (w + j)).sample options := by
  have hmeasured : (List.range (w + m)).filter (fun round : ℕ => ¬(round : ℤ) < options.warmup) =
      (List.range m).map (w + ·) := by
    have hnone : (List.range w).filter (fun round : ℕ => ¬(round : ℤ) < options.warmup) = [] := by
      rw [List.filter_eq_nil_iff]
      intro round hround
      have := List.mem_range.mp hround
      simp
      omega
    have hall : ((List.range m).map (w + ·)).filter (fun round : ℕ => ¬(round : ℤ) < options.warmup) =
        (List.range m).map (w + ·) := by
      rw [List.filter_eq_self]
      intro round hround
      obtain ⟨j, _, rfl⟩ := List.mem_map.mp hround
      simp
      omega
    rw [List.range_add, List.filter_append, hnone, hall, List.nil_append]
  have hround : ∀ round ∈ List.range (w + m), (decide ¬((call i round).round : ℤ) < options.warmup) =
      decide ¬(round : ℤ) < options.warmup := by
    intro round hround
    rw [htable.round i hi round (List.mem_range.mp hround)]
  have hsplit : (s.calls.filter fun call => call.leg = i ∧ ¬call.round < options.warmup) =
      (s.calls.filter (·.leg = i)).filter fun call => ¬call.round < options.warmup := by
    rw [List.filter_filter]
    apply List.filter_congr
    intro call _
    simp [Bool.and_comm]
  rw [h.stored i, hsplit, htable.leg i hi, List.filter_map]
  simp only [Function.comp_def]
  rw [List.filter_congr hround, hmeasured, List.map_map, List.map_map]
  rfl

/-! ### The report -/

/-- What is to be said of a report and the calls that led to it. -/
structure Balanced (legs : List Leg) (options : RunOptions) (report : RunReport) (calls : List Call) : Prop where
  /-- Each round runs every leg once. -/
  rounds : ∀ round : ℕ, round < options.warmup + options.repetitions →
    ((calls.filter (·.round = round)).map Call.leg).Perm (List.range legs.length)
  /-- Each leg is run so often, in the order of the rounds. -/
  runs : ∀ i < legs.length, ((calls.filter (·.leg = i)).length : ℤ) = options.warmup + options.repetitions ∧
    ((calls.filter (·.leg = i)).map Call.round).Pairwise (· < ·)
  results : report.legs.map LegResult.name = legs.map Leg.name
  /-- The samples are the results of the measured rounds. -/
  samples : ∀ i result, report.legs[i]? = some result →
    result.samples.map Sample.seconds =
      (calls.filter fun call => call.leg = i ∧ ¬call.round < options.warmup).map (·.outcome.seconds) ∧
    (result.samples.length : ℤ) = options.repetitions ∧ ∀ sample ∈ result.samples, sample.warmup = false
  /-- In each measured round the positions are a permutation. -/
  positions : ∀ j : ℕ, j < options.repetitions →
    (report.legs.map fun result => (result.samples.map Sample.position)[j]?).Perm
      ((List.range legs.length).map fun slot : ℕ => some (slot : ℤ))
  throttled : ∀ result ∈ report.legs, (result.throttled_count : ℤ) +
    (result.samples.filter fun sample => !sample.throttled).length = options.repetitions

theorem int_of_bounds {n : ℤ} (hlow : -2 ^ 31 ≤ n) (hhigh : n < 2 ^ 31) : int n = n := by
  unfold int
  rw [Int.bmod_eq_of_le] <;> omega

/-- The flags change neither the seconds nor the positions. -/
theorem exists_flag (machine : Machine) (options : RunOptions) (legs : List Leg) :
    ∃ flag : Sample → Sample, (∀ sample, (flag sample).seconds = sample.seconds ∧
        (flag sample).warmup = sample.warmup ∧ (flag sample).position = sample.position) ∧
      (run_interleaved machine options legs).1.legs = legs.mapIdx fun i leg =>
        finish leg (((Rounds.run machine options legs options.total_rounds.toNat).samples i).map flag) :=
  ⟨Sample.flag _, fun _ => ⟨rfl, rfl, rfl⟩, rfl⟩

section Run
variable {w m : ℕ} (hwarmup : options.warmup = w) (hrepetitions : options.repetitions = m)
  (hsum : w + m < 2 ^ 31)
include hwarmup hrepetitions hsum

theorem total_rounds_eq : options.total_rounds.toNat = w + m := by
  rw [RunOptions.total_rounds, hwarmup, hrepetitions, int_of_bounds] <;> omega

/-- The positions of one measured round, cut down to an `int`. -/
theorem positions_perm (machine : Machine) (legs : List Leg) {j : ℕ} (hj : j < m) :
    ((run_interleaved machine options legs).1.legs.map fun result => (result.samples.map Sample.position)[j]?).Perm
      ((List.range legs.length).map fun slot : ℕ => some (int slot)) := by
  obtain ⟨flag, hflag, hlegs⟩ := exists_flag machine options legs
  rw [total_rounds_eq hwarmup hrepetitions hsum] at hlegs
  have hdone := Rounds.done_run machine options legs (w + m)
  obtain ⟨call, htable⟩ := hdone.table
  have hlist : ((run_interleaved machine options legs).1.legs.map fun result =>
      (result.samples.map Sample.position)[j]?) =
      ((List.range legs.length).map fun i => (call i (w + j)).slot).map fun slot : ℕ => some (int slot) := by
    rw [hlegs]
    apply List.ext_getElem (by simp)
    intro i hi _
    have hin : i < legs.length := by simpa using hi
    simp only [List.getElem_map, List.getElem_mapIdx, List.getElem_range, finish,
      hdone.samples_eq hwarmup htable hin, List.getElem?_map, List.getElem?_range hj, Option.map_some,
      (hflag _).2.2, Call.sample]
  rw [hlist]
  exact (htable.slots (w + j) (by omega)).map _

/-- Everything but the positions. -/
theorem balanced (machine : Machine) (legs : List Leg)
    (hpositions : ∀ j < m, ((run_interleaved machine options legs).1.legs.map fun result =>
      (result.samples.map Sample.position)[j]?).Perm ((List.range legs.length).map fun slot : ℕ => some (slot : ℤ))) :
    Balanced legs options (run_interleaved machine options legs).1 (run_interleaved machine options legs).2 := by
  obtain ⟨flag, hflag, hlegs⟩ := exists_flag machine options legs
  rw [total_rounds_eq hwarmup hrepetitions hsum] at hlegs
  have hdone := Rounds.done_run machine options legs (w + m)
  obtain ⟨call, htable⟩ := hdone.table
  have hcalls : (run_interleaved machine options legs).2 = (Rounds.run machine options legs (w + m)).calls := by
    rw [run_interleaved, total_rounds_eq hwarmup hrepetitions hsum]
  rw [hcalls]
  have hresult : ∀ i result, (run_interleaved machine options legs).1.legs[i]? = some result →
      ∃ leg, i < legs.length ∧
        result = finish leg (((Rounds.run machine options legs (w + m)).samples i).map flag) := by
    intro i result hi
    rw [hlegs, List.getElem?_mapIdx, Option.map_eq_some_iff] at hi
    obtain ⟨leg, hleg, rfl⟩ := hi
    exact ⟨leg, (List.getElem?_eq_some_iff.mp hleg).1, rfl⟩
  refine ⟨fun round hround => ?_, fun i hi => ?_, ?_, fun i result hi => ?_, fun j hj => ?_, fun result hmem => ?_⟩
  · exact htable.once round (by omega)
  · rw [htable.leg i hi, hwarmup, hrepetitions]
    refine ⟨by simp, ?_⟩
    have hrounds : ((List.range (w + m)).map (call i)).map Call.round = List.range (w + m) := by
      rw [List.map_map]
      refine (List.map_congr_left fun round hround => ?_).trans (List.map_id _)
      exact htable.round i hi round (List.mem_range.mp hround)
    rw [hrounds]
    exact List.pairwise_lt_range
  · rw [hlegs]
    apply List.ext_getElem (by simp)
    intro i _ _
    simp [finish]
  · obtain ⟨leg, hin, rfl⟩ := hresult i result hi
    have hsamples := hdone.samples_eq hwarmup htable hin
    refine ⟨?_, by simp [finish, hsamples, hrepetitions], fun sample hsample => ?_⟩
    · show ((_ : List Sample).map flag).map Sample.seconds = _
      rw [hdone.stored i, List.map_map, List.map_map]
      exact List.map_congr_left fun call _ => (hflag _).1
    · obtain ⟨stored, hstored, rfl⟩ := List.mem_map.mp (show sample ∈ (_ : List Sample).map flag from hsample)
      rw [(hflag stored).2.1]
      rw [hsamples] at hstored
      obtain ⟨j, hj, rfl⟩ := List.mem_map.mp hstored
      have hround := htable.round i hin (w + j) (by have := List.mem_range.mp hj; omega)
      simp [Call.sample, hround, hwarmup]
  · exact hpositions j (by omega)
  · obtain ⟨i, hi⟩ := List.mem_iff_getElem?.mp hmem
    obtain ⟨leg, hin, rfl⟩ := hresult i result hi
    set samples := ((Rounds.run machine options legs (w + m)).samples i).map flag with hsamples
    have hlength : samples.length = m := by simp [hsamples, hdone.samples_eq hwarmup htable hin]
    have hcount := List.length_eq_countP_add_countP Sample.throttled (l := samples)
    show (((samples.filter Sample.throttled).length % word : ℕ) : ℤ) +
      (samples.filter fun sample => !sample.throttled).length = _
    have hle : (samples.filter Sample.throttled).length < word := by
      have := List.length_filter_le Sample.throttled samples
      unfold word
      omega
    rw [Nat.mod_eq_of_lt hle, hrepetitions, ← List.countP_eq_length_filter, ← List.countP_eq_length_filter]
    simp only [Bool.not_eq_true, Bool.decide_eq_false] at hcount
    omega

/-- The position of slot `2 ^ 31` is below zero. -/
theorem not_balanced (machine : Machine) {legs : List Leg} (hmany : 2 ^ 31 < legs.length) (hpos : 0 < m) :
    ¬Balanced legs options (run_interleaved machine options legs).1 (run_interleaved machine options legs).2 := by
  intro h
  have hcut := positions_perm hwarmup hrepetitions hsum machine legs hpos
  have hclaimed := h.positions 0 (by omega)
  have hmem : some (int (2 ^ 31 : ℕ)) ∈ (List.range legs.length).map fun slot : ℕ => some (int slot) :=
    List.mem_map_of_mem (f := fun slot : ℕ => some (int slot)) (List.mem_range.mpr hmany)
  rw [← hcut.mem_iff, hclaimed.mem_iff, List.mem_map] at hmem
  obtain ⟨slot, _, hslot⟩ := hmem
  have hnegative : int (2 ^ 31 : ℕ) = -2 ^ 31 := by decide
  rw [hnegative] at hslot
  have := Option.some.inj hslot
  omega

end Run

/-- **The schedule is balanced** if the slots of a round can be counted by an `int`, or if
nothing is measured, and not otherwise. -/
theorem schedule_balanced (machine : Machine) (options : RunOptions) (legs : List Leg)
    (hwarmup : 0 ≤ options.warmup) (hrepetitions : 0 ≤ options.repetitions)
    (hsum : options.warmup + options.repetitions < 2 ^ 31) :
    Balanced legs options (run_interleaved machine options legs).1 (run_interleaved machine options legs).2 ↔
      legs.length ≤ 2 ^ 31 ∨ options.repetitions = 0 := by
  obtain ⟨w, hw⟩ := Int.eq_ofNat_of_zero_le hwarmup
  obtain ⟨m, hm⟩ := Int.eq_ofNat_of_zero_le hrepetitions
  have hlt : w + m < 2 ^ 31 := by omega
  constructor
  · intro h
    by_contra hneither
    push Not at hneither
    obtain ⟨hmany, hne⟩ := hneither
    exact not_balanced hw hm hlt machine hmany (by omega) h
  · intro hfew
    refine balanced hw hm hlt machine legs fun j hj => ?_
    have hint : (List.range legs.length).map (fun slot : ℕ => some (int slot)) =
        (List.range legs.length).map fun slot : ℕ => some (slot : ℤ) := by
      apply List.map_congr_left
      intro slot hslot
      have := List.mem_range.mp hslot
      rw [int_of_bounds] <;> omega
    rw [← hint]
    exact positions_perm hw hm hlt machine legs hj

/-- Two legs, once each. -/
theorem schedule_balanced_pair :
    Balanced [⟨"standard", none⟩, ⟨"thunderbolt", none⟩] ⟨.Shuffle, 1, 0, 0⟩
      (run_interleaved ⟨0, fun _ => ⟨0, 0, 0⟩, id⟩ ⟨.Shuffle, 1, 0, 0⟩
        [⟨"standard", none⟩, ⟨"thunderbolt", none⟩]).1
      (run_interleaved ⟨0, fun _ => ⟨0, 0, 0⟩, id⟩ ⟨.Shuffle, 1, 0, 0⟩
        [⟨"standard", none⟩, ⟨"thunderbolt", none⟩]).2 :=
  (schedule_balanced _ _ _ (Int.le_refl 0) (by decide) (by decide)).mpr (.inl (by decide))

/-- One leg more than there are positions. -/
def overlong : List Leg := List.replicate (2 ^ 31 + 1) ⟨"leg", none⟩

theorem schedule_overflow :
    ¬Balanced overlong ⟨.Fixed, 1, 0, 0⟩
      (run_interleaved ⟨0, fun _ => ⟨0, 0, 0⟩, id⟩ ⟨.Fixed, 1, 0, 0⟩ overlong).1
      (run_interleaved ⟨0, fun _ => ⟨0, 0, 0⟩, id⟩ ⟨.Fixed, 1, 0, 0⟩ overlong).2 := by
  have hmany : 2 ^ 31 < overlong.length := by
    rw [overlong, List.length_replicate]
    exact Nat.lt_succ_self _
  exact not_balanced (w := 0) (m := 1) rfl rfl (by decide) _ hmany Nat.one_pos

end Thunderbolt.Bench.BenchmarkRunner
